import Passion.Script.Interpreter

/-!
# Limits of an evaluation

Whatever the stack, the script, the flags and the checker, an evaluation never reads, pops or
erases outside the stack: the depth guard of every opcode is enough for the accesses that follow
it. It executes at most 201 opcodes that are not pushes, and after each opcode that it gets past,
the two stacks hold at most 1000 elements together.

An element that is pushed has at most 520 bytes, or it is a copy of one that the evaluation began
with: the limit is enforced where a script brings in data, and the opcodes that copy do not check
it again. `VerifyScript` begins with an empty stack.

**Rules.** `Sound init pc n x n' R` says what a program of the machine needs and leaves: from a good
machine with `n` elements it ends with `n'` elements and a result in `R`, or fails with an error of
the script. Each access of the machine has one rule, and the opcodes follow by composing them.
-/

namespace Passion

open CScript ScriptM Lib List CScriptNum

/-- A failure that is an error of the script, or of a number that it reads. -/
def Failure.Ordinary (e : Failure) : Prop :=
  (∃ err, e = .script err) ∨ ∃ what, e = .scriptnumError what

open Failure

theorem Failure.ordinary_script (err : ScriptError) : (script err).Ordinary :=
  .inl ⟨err, rfl⟩

/-- An element within the size limit, or one of those the evaluation began with. -/
def Sized (init : List Valtype) (vch : Valtype) : Prop :=
  vch.length ≤ maxScriptElementSize ∨ vch ∈ init

namespace Machine

def nonPushes (m : Machine) : Nat := m.executed.countP (OP_16 < ·)

/-- What holds of the history of an evaluation that began with the stack `init`. -/
structure WithinLimits (init : List Valtype) (m : Machine) : Prop where
  pushed : ∀ vch ∈ m.pushed, Sized init vch
  executed : m.nonPushes ≤ 201
  depths : ∀ depth ∈ m.depths, depth ≤ 1000

/-- What holds of the machine before and after each opcode. Its position in the script is `pc`. -/
structure Good (init : List Valtype) (pc : CScript) (m : Machine) : Prop
    extends WithinLimits init m where
  stack : ∀ vch ∈ m.stack, Sized init vch
  altstack : ∀ vch ∈ m.altstack, Sized init vch
  counted : m.nonPushes ≤ m.nOpCount
  limited : m.nOpCount ≤ 201
  pc_eq : m.pc = pc

variable {init : List Valtype} {pc : CScript} {m : Machine}

theorem Good.withStack (hm : m.Good init pc) {stack : List Valtype}
    (hstack : ∀ vch ∈ stack, Sized init vch) : { m with stack := stack }.Good init pc :=
  { hm with stack := hstack }

theorem Good.withPushed (hm : m.Good init pc) {vch : Valtype} (hvch : Sized init vch) :
    { m with pushed := vch :: m.pushed }.Good init pc :=
  { hm with pushed := forall_mem_cons.mpr ⟨hvch, hm.pushed⟩ }

theorem good_start (stack : List Valtype) (script : CScript) :
    (start stack script).Good stack script where
  pushed := by simp [start]
  executed := by simp [start, nonPushes]
  depths := by simp [start]
  stack := fun _ hvch => .inr hvch
  altstack := by simp [start]
  counted := by simp [start, nonPushes]
  limited := by simp [start]
  pc_eq := rfl

end Machine

/-- From a good machine with `n` elements, `x` returns with `n'` elements and a result in `R`, or
fails with an ordinary failure. -/
def Sound {α : Type} (init : List Valtype) (pc : CScript) (n : Nat) (x : ScriptM α) (n' : α → Nat)
    (R : α → Prop) : Prop :=
  ∀ m : Machine, m.Good init pc → n ≤ m.stack.length →
    wp x (fun a m' => m'.Good init pc ∧ n' a ≤ m'.stack.length ∧ R a)
      (fun e m' => e.Ordinary ∧ m'.WithinLimits init) m

/-- Sound from any depth. -/
def Safe (init : List Valtype) (pc : CScript) (x : ScriptM Unit) : Prop :=
  Sound init pc 0 x (fun _ => 0) fun _ => True

namespace Sound

variable {α β : Type} {init : List Valtype} {pc : CScript} {n k : Nat} {n' : α → Nat}
  {R : α → Prop} {x : ScriptM α}

/-! ## Composition -/

variable {k' : β → Nat} {S : β → Prop}

theorem bind {f : α → ScriptM β} (hx : Sound init pc n x n' R)
    (hf : ∀ a, R a → Sound init pc (n' a) (f a) k' S) : Sound init pc n (x >>= f) k' S := by
  intro m hm hn
  refine wp_seq (hx m hm hn) ?_
  intro a m' ⟨hm', hn', ha⟩
  exact hf a ha m' hm' hn'

theorem seq {x : ScriptM Unit} {y : ScriptM β} {P : Unit → Prop}
    (hx : Sound init pc n x (fun _ => k) P) (hy : Sound init pc k y k' S) :
    Sound init pc n (x >>= fun _ => y) k' S :=
  hx.bind fun _ _ => hy

theorem weaken (hx : Sound init pc n x n' R) {k' : α → Nat} {S : α → Prop} (hk : n ≤ k)
    (hk' : ∀ a, k' a ≤ n' a) (hS : ∀ a, R a → S a) : Sound init pc k x k' S := by
  intro m hm hn
  refine wp_mono ?_ (fun _ _ => id) (hx m hm (le_trans hk hn))
  intro a m' ⟨hm', hn', ha⟩
  exact ⟨hm', le_trans (hk' a) hn', hS a ha⟩

/-- The last program of an opcode, whose depth and result nothing relies on. -/
theorem last (hx : Sound init pc n x n' R) : Sound init pc n x (fun _ => 0) fun _ => True :=
  hx.weaken (Nat.le_refl n) (fun _ => Nat.zero_le _) fun _ _ => trivial

theorem ret {a : α} (ha : R a) : Sound init pc n (pure a) (fun _ => n) R :=
  fun _ hm hn => ⟨hm, hn, ha⟩

theorem skip : Sound init pc n (pure ()) (fun _ => 0) fun _ => True :=
  (ret (R := fun _ => True) trivial).last

theorem error (e : ScriptError) : Sound init pc n (setError e) n' R :=
  fun _ hm _ => ⟨ordinary_script e, hm.toWithinLimits⟩

theorem ite {c : Prop} [Decidable c] {y : ScriptM α} (hx : c → Sound init pc n x n' R)
    (hy : ¬c → Sound init pc n y n' R) : Sound init pc n (if c then x else y) n' R := by
  by_cases hc : c
  · rw [if_pos hc]
    exact hx hc
  · rw [if_neg hc]
    exact hy hc

/-- A program may read the machine, and then relies on its being good. -/
theorem get {f : Machine → ScriptM β}
    (hf : ∀ m : Machine, m.Good init pc → n ≤ m.stack.length → Sound init pc n (f m) k' S) :
    Sound init pc n (MonadState.get >>= f) k' S :=
  fun m hm hn => hf m hm hn m hm hn

/-! ## Guards -/

theorem require (c : Prop) [Decidable c] (e : ScriptError) :
    Sound init pc n (require c e) (fun _ => n) fun _ => c := by
  intro m hm hn
  refine wp_ensure.mpr ⟨fun hc => ⟨hm, hn, hc⟩, fun _ => ?_⟩
  exact ⟨ordinary_script e, hm.toWithinLimits⟩

theorem requireOk (check : Except ScriptError Unit) :
    Sound init pc n (requireOk check) (fun _ => n) fun _ => True := by
  cases check with
  | ok u => exact ret trivial
  | error e => exact error e

theorem requireStack (k : Nat) (e : ScriptError) :
    Sound init pc n (requireStack k e) (fun _ => k) fun _ => True := by
  intro m hm _
  refine wp_bind.mpr (wp_ensure.mpr ⟨fun hk => ⟨hm, hk, trivial⟩, fun _ => ?_⟩)
  exact ⟨ordinary_script e, hm.toWithinLimits⟩

theorem need (k : Nat) : Sound init pc n (need k) (fun _ => k) fun _ => True := requireStack k _

theorem requireIndex (i : Int) (e : ScriptError) :
    Sound init pc n (requireIndex i e) (fun j => j + 1) fun _ => True := by
  intro m hm _
  have hle := toInt_le m.stack.length
  simp only [ScriptM.requireIndex, ScriptM.require, wp_bind, wp_get, wp_ensure]
  refine ⟨fun hi => ⟨hm, by omega, trivial⟩, fun _ => ?_⟩
  exact ⟨ordinary_script e, hm.toWithinLimits⟩

theorem requireStackInt (k : Nat) (e : ScriptError) :
    Sound init pc n (requireStackInt k e) (fun _ => k) fun _ => True := by
  intro m hm _
  have hle := toInt_le m.stack.length
  simp only [ScriptM.requireStackInt, ScriptM.require, wp_bind, wp_get, wp_ensure]
  refine ⟨fun hk => ⟨hm, by omega, trivial⟩, fun _ => ?_⟩
  exact ⟨ordinary_script e, hm.toWithinLimits⟩

/-! ## Accesses -/

section

variable (fRequireMinimal : Bool) (i : Nat)

theorem stacktop (hi : 1 ≤ i ∧ i ≤ n) : Sound init pc n (stacktop i) (fun _ => n) (Sized init) := by
  intro m hm hn
  have hlt : i - 1 < m.stack.length := by omega
  simp only [ScriptM.stacktop, wp_bind, wp_get, if_neg (show i ≠ 0 by omega),
    getElem?_eq_getElem hlt]
  exact ⟨hm, hn, hm.stack _ (getElem_mem hlt)⟩

theorem popstack : Sound init pc (n + 1) popstack (fun _ => n) fun _ => True := by
  intro m hm hn
  simp only [ScriptM.popstack, wp_bind, wp_get]
  cases hs : m.stack with
  | nil => simp [hs] at hn
  | cons vch rest =>
    have hrest : ∀ v ∈ rest, Sized init v := fun v hv => hm.stack v (by simp [hs, hv])
    exact ⟨hm.withStack hrest, by simpa [hs] using hn, trivial⟩

theorem push {vch : Valtype} (hvch : Sized init vch) :
    Sound init pc n (push vch) (fun _ => n + 1) fun _ => True := by
  intro m hm hn
  have hstack := forall_mem_cons.mpr ⟨hvch, hm.stack⟩
  exact ⟨(hm.withStack hstack).withPushed hvch, Nat.succ_le_succ hn, trivial⟩

theorem pushNum (bn : Int) : Sound init pc n (pushNum bn) (fun _ => n + 1) fun _ => True := by
  refine push (.inl ?_)
  have hlen := length_serialize bn
  unfold maxScriptElementSize
  omega

theorem pushBool (b : Bool) : Sound init pc n (pushBool b) (fun _ => n + 1) fun _ => True := by
  refine push (.inl ?_)
  cases b with
  | false => decide
  | true => decide

theorem swapTop (j : Nat) (hi : 1 ≤ i ∧ i ≤ n) (hj : 1 ≤ j ∧ j ≤ n) :
    Sound init pc n (swapTop i j) (fun _ => n) fun _ => True := by
  refine (stacktop i hi).bind fun vch1 h1 => (stacktop j hj).bind fun vch2 h2 => ?_
  intro m hm hn
  refine ⟨hm.withStack fun v hv => ?_, by simpa using hn, trivial⟩
  rcases mem_or_eq_of_mem_set hv with hv | rfl
  · rcases mem_or_eq_of_mem_set hv with hv | rfl
    · exact hm.stack v hv
    · exact h2
  · exact h1

theorem eraseTop (j : Nat) (hi : j ≤ i ∧ i ≤ n) :
    Sound init pc n (eraseTop i j) (fun _ => n - (i - j)) fun _ => True := by
  intro m hm hn
  simp only [ScriptM.eraseTop, wp_bind, wp_get, wp_ensure]
  refine ⟨fun _ => ⟨hm.withStack fun v hv => ?_, ?_, trivial⟩, fun hout => absurd ⟨hi.1, ?_⟩ hout⟩
  · rcases mem_append.mp hv with hv | hv
    · exact hm.stack v (mem_of_mem_take hv)
    · exact hm.stack v (mem_of_mem_drop hv)
  · simp only [length_append, length_take, length_drop]
    omega
  · omega

theorem insertTop {vch : Valtype} (hvch : Sized init vch) (hin : i ≤ n) :
    Sound init pc n (insertTop i vch) (fun _ => n + 1) fun _ => True := by
  intro m hm hn
  simp only [ScriptM.insertTop, wp_bind, wp_get, wp_ensure]
  refine ⟨fun _ => ⟨(hm.withStack fun v hv => ?_).withPushed hvch, ?_, trivial⟩,
    fun hout => absurd (le_trans hin hn) hout⟩
  · rcases mem_append.mp hv with hv | hv
    · exact hm.stack v (mem_of_mem_take hv)
    · rcases mem_cons.mp hv with rfl | hv
      · exact hvch
      · exact hm.stack v (mem_of_mem_drop hv)
  · simp only [length_append, length_take, length_cons, length_drop]
    omega

theorem popstacks (j : Nat) : Sound init pc (n + j) (popstacks j) (fun _ => n) fun _ => True := by
  induction j with
  | zero => exact ret trivial
  | succ j ih => exact popstack.seq ih

theorem scriptNum (vch : Valtype) (nMaxNumSize : Nat) :
    Sound init pc n (scriptNum fRequireMinimal vch nMaxNumSize) (fun _ => n)
      fun bn => bn.natAbs < 256 ^ nMaxNumSize := by
  unfold ScriptM.scriptNum
  cases h : ofVch vch fRequireMinimal nMaxNumSize with
  | ok bn => exact ret (natAbs_ofVch_lt h)
  | error what => exact fun m hm _ => ⟨.inr ⟨what, rfl⟩, hm.toWithinLimits⟩

theorem verifyResult (verify fSuccess : Bool) (e : ScriptError) :
    Sound init pc (n + 1) (verifyResult verify fSuccess e) (fun _ => n) fun _ => True := by
  refine ite (fun _ => ite (fun _ => popstack) fun _ => error e) fun _ => ?_
  exact (ret trivial).weaken (le_refl _) (fun _ => Nat.le_succ n) fun _ => id

/-! ## Opcodes -/

theorem stackOp (op : StackOp) : Safe init pc (stackOp op) := by
  cases op with
  | twoDrop =>
    refine (need 2).seq ?_
    exact popstack.seq popstack.last
  | twoDup =>
    refine (need 2).seq ?_
    refine (stacktop 2 (by omega)).bind fun vch1 h1 => ?_
    refine (stacktop 1 (by omega)).bind fun vch2 h2 => ?_
    exact (push h1).seq (push h2).last
  | threeDup =>
    refine (need 3).seq ?_
    refine (stacktop 3 (by omega)).bind fun vch1 h1 => ?_
    refine (stacktop 2 (by omega)).bind fun vch2 h2 => ?_
    refine (stacktop 1 (by omega)).bind fun vch3 h3 => ?_
    exact (push h1).seq ((push h2).seq (push h3).last)
  | twoOver =>
    refine (need 4).seq ?_
    refine (stacktop 4 (by omega)).bind fun vch1 h1 => ?_
    refine (stacktop 3 (by omega)).bind fun vch2 h2 => ?_
    exact (push h1).seq (push h2).last
  | twoRot =>
    refine (need 6).seq ?_
    refine (stacktop 6 (by omega)).bind fun vch1 h1 => ?_
    refine (stacktop 5 (by omega)).bind fun vch2 h2 => ?_
    refine (eraseTop 6 4 (by omega)).seq ?_
    exact (push h1).seq (push h2).last
  | twoSwap =>
    refine (need 4).seq ?_
    refine (swapTop 4 2 (by omega) (by omega)).seq ?_
    exact (swapTop 3 1 (by omega) (by omega)).last
  | ifDup =>
    refine (need 1).seq ?_
    refine (stacktop 1 (by omega)).bind fun vch h => ?_
    exact ite (fun _ => (push h).last) fun _ => skip
  | depth => exact get fun m _ _ => (pushNum m.stack.length).last
  | drop => exact (need 1).seq popstack.last
  | dup =>
    refine (need 1).seq ?_
    exact (stacktop 1 (by omega)).bind fun vch h => (push h).last
  | nip => exact (need 2).seq (eraseTop 2 1 (by omega)).last
  | «over» =>
    refine (need 2).seq ?_
    exact (stacktop 2 (by omega)).bind fun vch h => (push h).last
  | rot =>
    refine (need 3).seq ?_
    refine (swapTop 3 2 (by omega) (by omega)).seq ?_
    exact (swapTop 2 1 (by omega) (by omega)).last
  | swap => exact (need 2).seq (swapTop 2 1 (by omega) (by omega)).last
  | tuck =>
    refine (need 2).seq ?_
    exact (stacktop 1 (by omega)).bind fun vch h => (insertTop 2 h (by omega)).last
  | size =>
    refine (need 1).seq ?_
    exact (stacktop 1 (by omega)).bind fun vch _ => (pushNum vch.length).last

theorem verify : Safe init pc verify := by
  refine (need 1).seq ?_
  refine (stacktop 1 (by omega)).bind fun vch _ => ?_
  exact ite (fun _ => popstack.last) fun _ => error _

theorem pick (roll : Bool) : Safe init pc (pick fRequireMinimal roll) := by
  refine (need 2).seq ?_
  refine (stacktop 1 (by omega)).bind fun vch _ => ?_
  refine (scriptNum _ vch _).bind fun bn _ => ?_
  refine popstack.seq ?_
  -- the index is below the depth, whatever the number was
  refine (requireIndex _ _).bind fun n _ => ?_
  refine (stacktop (n + 1) (by omega)).bind fun vch h => ?_
  refine ite (fun _ => ?_) fun _ => (push h).last
  exact (eraseTop (n + 1) n (by omega)).seq (push h).last

theorem equal (verify : Bool) : Safe init pc (equal verify) := by
  refine (need 2).seq ?_
  refine (stacktop 2 (by omega)).bind fun vch1 _ => ?_
  refine (stacktop 1 (by omega)).bind fun vch2 _ => ?_
  refine popstack.seq (popstack.seq ?_)
  exact (pushBool _).seq (verifyResult _ _ _).last

/-! The conditionals only touch `vfExec`, and `OP_FROMALTSTACK` reads the other stack. -/

theorem cond (fExec notIf : Bool) : Safe init pc (cond fExec notIf) := by
  have hvalue : Sound init pc 0 (condValue fExec notIf) (fun _ => 0) fun _ => True := by
    refine ite (fun _ => ?_) fun _ => (ret (R := fun _ => True) trivial).last
    refine (requireStack 1 _).seq ((stacktop 1 (by omega)).bind fun vch _ => ?_)
    exact popstack.seq (ret trivial)
  exact hvalue.bind fun fValue _ => fun m hm hn => ⟨{ hm with }, hn, trivial⟩

theorem else_ : Safe init pc else_ := by
  intro m hm hn
  simp only [ScriptM.else_, wp_bind, wp_get]
  cases m.vfExec with
  | nil => exact ⟨ordinary_script _, hm.toWithinLimits⟩
  | cons fValue vfExec => exact ⟨{ hm with }, hn, trivial⟩

theorem endIf : Safe init pc endIf := by
  intro m hm hn
  simp only [ScriptM.endIf, wp_bind, wp_get]
  cases m.vfExec with
  | nil => exact ⟨ordinary_script _, hm.toWithinLimits⟩
  | cons fValue vfExec => exact ⟨{ hm with }, hn, trivial⟩

theorem toAltStack : Safe init pc toAltStack := by
  refine (need 1).seq ((stacktop 1 (by omega)).bind fun vch h => ?_)
  have hpush : Sound init pc 1 (pushAltstack vch) (fun _ => 1) fun _ => True := by
    intro m hm hn
    have halt := forall_mem_cons.mpr ⟨h, hm.altstack⟩
    exact ⟨{ hm.withPushed h with altstack := halt }, hn, trivial⟩
  exact hpush.seq popstack.last

theorem fromAltStack : Safe init pc fromAltStack := by
  intro m hm hn
  simp only [ScriptM.fromAltStack, ScriptM.require, wp_bind, wp_get, wp_ensure]
  refine ⟨fun halt => ?_, fun _ => ⟨ordinary_script _, hm.toWithinLimits⟩⟩
  cases ha : m.altstack with
  | nil => simp [ha] at halt
  | cons vch rest =>
    have hsized : ∀ v ∈ vch :: rest, Sized init v := ha ▸ hm.altstack
    obtain ⟨hvch, hrest⟩ := forall_mem_cons.mp hsized
    simp only [altstacktop, ScriptM.push, wp_bind, wp_get, wp_modify, ha, wp_pure]
    have hstack := forall_mem_cons.mpr ⟨hvch, hm.stack⟩
    exact ⟨{ (hm.withStack hstack).withPushed hvch with altstack := hrest }, Nat.zero_le _, trivial⟩

/-- No assertion of the arithmetic fails on a number of four bytes. -/
theorem unary_apply {op : UnaryOp} {bn : Int} (h : bn.natAbs < 256 ^ defaultMaxNumSize) :
    ∃ result, op.apply bn = some result := by
  simp only [defaultMaxNumSize] at h
  have hneg : UnaryOp.neg bn = some (-bn) := if_pos (by omega)
  cases op with
  | oneAdd => exact ⟨bn + 1, if_pos (by omega)⟩
  | oneSub => exact ⟨bn - 1, if_pos (by omega)⟩
  | negate => exact ⟨-bn, hneg⟩
  | abs =>
    simp only [UnaryOp.apply, hneg]
    split
    · exact ⟨-bn, rfl⟩
    · exact ⟨bn, rfl⟩
  | not => exact ⟨_, rfl⟩
  | zeroNotEqual => exact ⟨_, rfl⟩

theorem unary (op : UnaryOp) : Safe init pc (unary fRequireMinimal op) := by
  refine (need 1).seq ((stacktop 1 (by omega)).bind fun vch _ => ?_)
  refine (scriptNum _ vch _).bind fun bn hbn => ?_
  obtain ⟨result, hresult⟩ := unary_apply hbn
  rw [hresult]
  exact popstack.seq (pushNum result).last

theorem binary (op : BinaryOp) : Safe init pc (binary fRequireMinimal op) := by
  refine (need 2).seq ((stacktop 2 (by omega)).bind fun vch1 _ => ?_)
  refine (scriptNum _ vch1 _).bind fun bn1 _ => ?_
  refine (stacktop 1 (by omega)).bind fun vch2 _ => ?_
  refine (scriptNum _ vch2 _).bind fun bn2 _ => ?_
  refine popstack.seq (popstack.seq ((pushNum _).seq (ite (fun _ => ?_) fun _ => skip)))
  refine (stacktop 1 (by omega)).bind fun vch _ => ?_
  exact ite (fun _ => popstack.last) fun _ => error _

theorem within : Safe init pc (within fRequireMinimal) := by
  refine (need 3).seq ((stacktop 3 (by omega)).bind fun vch1 _ => ?_)
  refine (scriptNum _ vch1 _).bind fun bn1 _ => ?_
  refine (stacktop 2 (by omega)).bind fun vch2 _ => ?_
  refine (scriptNum _ vch2 _).bind fun bn2 _ => ?_
  refine (stacktop 1 (by omega)).bind fun vch3 _ => ?_
  refine (scriptNum _ vch3 _).bind fun bn3 _ => ?_
  exact popstack.seq (popstack.seq (popstack.seq (pushBool _).last))

end

variable (ctx : ScriptContext) (flags : ScriptFlags)

theorem length_hash (op : HashOp) (vch : Valtype) : (op.apply ctx.crypto vch).length ≤ 32 := by
  cases op with
  | ripemd160 => simp [HashOp.apply, ctx.crypto.length_ripemd160]
  | sha1 => simp [HashOp.apply, ctx.crypto.length_sha1]
  | sha256 => simp [HashOp.apply, ctx.crypto.length_sha256]
  | hash160 => simp [HashOp.apply, ScriptCrypto.hash160, ctx.crypto.length_ripemd160]
  | hash256 => simp [HashOp.apply, ScriptCrypto.hash256, ctx.crypto.length_sha256]

theorem hash (op : HashOp) : Safe init pc (ctx.hash op) := by
  refine (need 1).seq ((stacktop 1 (by omega)).bind fun vch _ => popstack.seq (push (.inl ?_)).last)
  exact le_trans (length_hash ctx op vch) (by decide)

theorem checkEncodings (vchSig vchPubKey : Valtype) :
    Sound init pc n (ctx.checkEncodings flags vchSig vchPubKey) (fun _ => n) fun _ => True :=
  (requireOk _).seq (requireOk _)

theorem noteCheck : Sound init pc n ScriptContext.noteCheck (fun _ => n) fun _ => True :=
  fun _ hm hn => ⟨{ hm with }, hn, trivial⟩

theorem checkSig (verify : Bool) : Safe init pc (ctx.checkSig flags verify) := by
  refine (need 2).seq ((stacktop 2 (by omega)).bind fun vchSig _ => ?_)
  refine (stacktop 1 (by omega)).bind fun vchPubKey _ => ?_
  refine get fun m _ _ => (checkEncodings ctx flags vchSig vchPubKey).seq ?_
  refine noteCheck.seq ?_
  exact popstack.seq (popstack.seq ((pushBool _).seq (verifyResult _ _ _).last))

theorem dropSignatures {nSigsCount isig : Nat} (scriptCode : CScript) (hisig : 1 ≤ isig)
    (hn : isig + nSigsCount ≤ n + 1) :
    Sound init pc n (ScriptContext.dropSignatures nSigsCount isig scriptCode) (fun _ => n)
      fun _ => True := by
  induction nSigsCount generalizing isig scriptCode with
  | zero => exact ret trivial
  | succ nSigsCount ih =>
    exact (stacktop isig (by omega)).bind fun vchSig _ => ih _ (by omega) (by omega)

/-- The keys and the signatures that are left stay within the arguments. -/
theorem checkSignatures (scriptCode : CScript) {nKeysCount nSigsCount ikey isig : Nat}
    (hikey : 1 ≤ ikey) (hkeys : ikey + nKeysCount ≤ n + 1) (hisig : 1 ≤ isig)
    (hsigs : isig + nSigsCount ≤ n + 1) :
    Sound init pc n (ctx.checkSignatures flags scriptCode nKeysCount nSigsCount ikey isig)
      (fun _ => n) fun _ => True := by
  induction nKeysCount generalizing nSigsCount ikey isig with
  | zero => exact ret trivial
  | succ nKeysCount ih =>
    refine ite (fun _ => ret trivial) fun hleft => ?_
    refine (stacktop isig (by omega)).bind fun vchSig _ => ?_
    refine (stacktop ikey (by omega)).bind fun vchPubKey _ => ?_
    refine (checkEncodings ctx flags vchSig vchPubKey).seq (noteCheck.seq ?_)
    refine ite (fun _ => ret trivial) fun _ => ih (by omega) (by omega) ?_ ?_
    · split
      · omega
      · exact hisig
    · split
      · omega
      · exact hsigs

theorem countOps (k : Nat) :
    Sound init pc n (ScriptContext.countOps k) (fun _ => n) fun _ => True := by
  intro m hm hn
  simp only [ScriptContext.countOps, ScriptM.require, wp_bind, wp_modify, wp_get, wp_ensure]
  refine ⟨fun hk => ⟨{ hm with counted := ?_, limited := hk }, hn, trivial⟩, fun _ => ?_⟩
  · exact le_trans hm.counted (Nat.le_add_right _ _)
  · exact ⟨ordinary_script _, { hm.toWithinLimits with }⟩

theorem readCount (i bound : Nat) (e : ScriptError) (hi : 1 ≤ i) :
    Sound init pc n (ScriptContext.readCount flags i bound e) (fun _ => i) (· ≤ bound) := by
  refine (requireStackInt i _).seq ((stacktop i (by omega)).bind fun vch _ => ?_)
  refine (scriptNum _ vch _).bind fun bn _ => ?_
  exact (require _ e).bind fun _ hbn => ret (by omega)

theorem checkMultiSig (verify : Bool) : Safe init pc (ctx.checkMultiSig flags verify) := by
  refine (readCount flags 1 _ _ (by omega)).bind fun nKeysCount _ => ?_
  refine (countOps nKeysCount).seq ?_
  refine (readCount flags _ _ _ (by omega)).bind fun nSigsCount _ => ?_
  refine (requireStackInt _ _).seq (get fun m _ _ => ?_)
  refine (dropSignatures _ (by omega) (by omega)).bind fun scriptCode _ => ?_
  refine (checkSignatures ctx flags scriptCode (by omega) (by omega) (by omega) (by omega)).bind
    fun fSuccess _ => ?_
  have hpops := @popstacks init pc 1 (3 + nKeysCount + nSigsCount - 1)
  refine (hpops.weaken (by omega) (fun _ => le_refl _) fun _ => id).seq ?_
  refine (need 1).seq ((stacktop 1 (by omega)).bind fun dummy _ => (require _ _).seq ?_)
  exact popstack.seq ((pushBool _).seq (verifyResult _ _ _).last)

theorem checkLockTimeVerify : Safe init pc (ctx.checkLockTimeVerify flags) := by
  refine ite (fun _ => ?_) fun _ => (require _ _).last
  refine (need 1).seq ((stacktop 1 (by omega)).bind fun vch _ => ?_)
  refine (scriptNum _ vch _).bind fun nLockTime _ => ?_
  exact (require _ _).seq (require _ _).last

/-- **Every case of the switch is safe.** -/
theorem exec (fExec : Bool) (op : Op) : Safe init pc (ctx.exec flags fExec op) := by
  cases op with
  | number n => exact (pushNum n).last
  | nop => exact skip
  | checkLockTimeVerify => exact checkLockTimeVerify ctx flags
  | upgradableNop => exact (require _ _).last
  | cond notIf => exact cond fExec notIf
  | «else» => exact else_
  | endIf => exact endIf
  | verify => exact verify
  | «return» => exact error _
  | toAltStack => exact toAltStack
  | fromAltStack => exact fromAltStack
  | stack op => exact stackOp op
  | pick roll => exact pick _ roll
  | equal verify => exact equal verify
  | unary op => exact unary _ op
  | binary op => exact binary _ op
  | within => exact within _
  | hash op => exact hash ctx op
  | codeSeparator => exact fun m hm hn => ⟨{ hm with }, hn, trivial⟩
  | checkSig verify => exact checkSig ctx flags verify
  | checkMultiSig verify => exact checkMultiSig ctx flags verify
  | checkColdStakeVerify => exact (require _ _).last
  | unknown => exact error _

end Sound

/-! ## The evaluation -/

open Machine

namespace ScriptContext

variable {init : List Valtype} {pc : CScript} (ctx : ScriptContext) (flags : ScriptFlags)

variable {m : Machine}

/-- Only this moves the position in the script. -/
theorem wp_fetch (hm : m.Good init pc) :
    wp fetch (fun _ m' => ∃ rest, m'.Good init rest ∧ rest.length < pc.length)
      (fun e m' => e.Ordinary ∧ m'.WithinLimits init) m := by
  simp only [fetch, wp_bind, wp_get]
  rw [hm.pc_eq]
  cases hread : getOp pc with
  | none => exact ⟨ordinary_script _, hm.toWithinLimits⟩
  | some read => exact ⟨_, { hm with pc_eq := rfl }, length_getOp hread⟩

/-- An opcode that has been counted may be executed: the machine with the opcode in its history is
good. -/
theorem wp_countOp (hm : m.Good init pc) (opcode : UInt8) : wp (countOp opcode)
      (fun _ m' => m'.Good init pc ∧ { m' with executed := opcode :: m'.executed }.Good init pc)
      (fun e m' => e.Ordinary ∧ m'.WithinLimits init) m := by
  have hcounted := hm.counted
  have hexecuted := hm.executed
  unfold nonPushes at hcounted hexecuted
  unfold countOp
  split
  · rename_i hop
    simp only [countOps, require, wp_bind, wp_modify, wp_get, wp_ensure]
    refine ⟨fun hk => ⟨{ hm with counted := ?_, limited := hk }, ?_⟩, fun _ => ?_⟩
    · exact le_trans hcounted (Nat.le_succ _)
    · refine { hm with executed := ?_, counted := ?_, limited := hk }
      · simp only [nonPushes, countP_cons, hop, decide_true, if_true]
        omega
      · simp only [nonPushes, countP_cons, hop, decide_true, if_true]
        omega
    · exact ⟨ordinary_script _, { hm.toWithinLimits with }⟩
  · rename_i hop
    refine ⟨hm, { hm with executed := ?_, counted := ?_ }⟩
    · simpa [nonPushes, hop] using hexecuted
    · simpa [nonPushes, hop] using hcounted

theorem wp_dispatch (hm : m.Good init pc) {opcode : UInt8} {vchPushValue : Valtype}
    (hexec : { m with executed := opcode :: m.executed }.Good init pc)
    (hsize : vchPushValue.length ≤ maxScriptElementSize) :
    wp (ctx.dispatch flags opcode vchPushValue) (fun _ m' => m'.Good init pc)
      (fun e m' => e.Ordinary ∧ m'.WithinLimits init) m := by
  -- what is left of a sound program once the opcode is noted
  have hrun : ∀ {x : ScriptM Unit}, Safe init pc x →
      wp x (fun _ m' => m'.Good init pc) (fun e m' => e.Ordinary ∧ m'.WithinLimits init)
        { m with executed := opcode :: m.executed } := fun hx =>
    wp_mono (fun _ _ h => h.1) (fun _ _ => id) (hx _ hexec (Nat.zero_le _))
  simp only [dispatch, wp_bind, wp_get]
  split
  · exact hrun ((Sound.require _ _).seq (Sound.push (.inl hsize)).last)
  · split
    · exact hrun (Sound.exec ctx flags m.fExec (decode opcode))
    · exact hm

/-- What holds when an evaluation has stopped with a failure. At the size limit the opcode that
passes it is the last one. -/
def Stopped (init : List Valtype) (e : Failure) (m : Machine) : Prop :=
  e.Ordinary ∧ (m.WithinLimits init ∨
    e = .script .stackSize ∧ { m with depths := m.depths.tail }.WithinLimits init)

theorem wp_limitDepth (hm : m.Good init pc) :
    wp limitDepth (fun _ m' => m'.Good init pc) (Stopped init) m := by
  simp only [limitDepth, require, wp_bind, wp_modify, wp_get, wp_ensure]
  refine ⟨fun hdepth => { hm with depths := ?_ }, fun _ => ?_⟩
  · exact forall_mem_cons.mpr ⟨hdepth, hm.depths⟩
  · exact ⟨ordinary_script _, .inr ⟨rfl, { hm.toWithinLimits with }⟩⟩

/-- **Each round keeps the machine good, and moves on in the script.** -/
theorem wp_step (hm : m.Good init pc) :
    wp (ctx.step flags) (fun _ m' => ∃ rest, m'.Good init rest ∧ rest.length < pc.length)
      (Stopped init) m := by
  have hstop : ∀ e m', e.Ordinary ∧ m'.WithinLimits init → Stopped init e m' :=
    fun _ _ h => ⟨h.1, .inl h.2⟩
  refine wp_bind.mpr (wp_mono ?_ hstop (wp_fetch hm))
  intro (opcode, vchPushValue) m ⟨rest, hfetch, hlt⟩
  refine wp_bind.mpr (wp_mono ?_ hstop (Sound.require _ _ m hfetch (Nat.zero_le _)))
  intro _ m hsize
  refine wp_bind.mpr (wp_mono ?_ hstop (wp_countOp hsize.1 opcode))
  intro _ m hcount
  refine wp_bind.mpr (wp_ensure.mpr ⟨fun _ => ?_, fun _ => ?_⟩)
  · refine wp_bind.mpr (wp_mono ?_ hstop (ctx.wp_dispatch flags hcount.1 hcount.2 hsize.2.2))
    intro _ m hm
    exact wp_mono (fun _ _ hm => ⟨rest, hm, hlt⟩) (fun _ _ => id) (wp_limitDepth hm)
  · exact hstop _ _ ⟨ordinary_script _, hcount.1.toWithinLimits⟩

/-- **An evaluation stays within its limits.** It never fails by an access outside the stack, and
the elements it pushes, the opcodes it executes and the depths it gets past are bounded. If it
succeeds, it has read the whole script. -/
theorem evaluate_withinLimits (stack : List Valtype) :
    wp (ctx.evaluate flags) (fun _ m => m.WithinLimits stack ∧ m.pc = []) (Stopped stack)
      (Machine.start stack ctx.script) := by
  have hstart := good_start stack ctx.script
  refine wp_bind.mpr (wp_ensure.mpr ⟨fun _ => ?_, fun _ => ?_⟩)
  · -- the machine stays good at the position that each round reaches
    have hloop := @wp_whileLoop _ _ (Stopped stack) _ (fun m => !m.pc.isEmpty) (ctx.step flags)
      .unfinished ctx.script.length (fun m => ∃ pc, m.Good stack pc) (fun m => m.pc.length) ?_
      ⟨_, hstart⟩ (le_refl _) ?_
    · refine wp_seq hloop ?_
      intro _ m ⟨⟨pc, hm⟩, hend⟩
      refine wp_bind.mpr (wp_ensure.mpr ⟨fun _ => ⟨hm.toWithinLimits, by simpa using hend⟩, ?_⟩)
      exact fun _ => ⟨ordinary_script _, .inl hm.toWithinLimits⟩
    · intro m ⟨pc, hm⟩ _
      refine wp_mono ?_ (fun _ _ => id) (ctx.wp_step flags hm)
      intro _ m' ⟨rest, hm', hlt⟩
      exact ⟨⟨rest, hm'⟩, by rwa [hm'.pc_eq, hm.pc_eq]⟩
    · intro m hm
      simp [length_eq_zero_iff.mp hm]
  · exact ⟨ordinary_script _, .inl hstart.toWithinLimits⟩

end ScriptContext

/-! An element of the stack that the evaluation begins with may be larger, and is copied; and the
opcode that passes the size limit has been executed. -/

namespace SafetySample

def checker : BaseSignatureChecker := ⟨fun _ _ _ _ => false, fun _ => false, fun _ => false⟩

def context : ScriptContext := ⟨.sample, checker, .base, [OP_DUP]⟩

def element : Valtype := replicate 521 0

/-- The machine that `OP_DUP` leaves. -/
def copied : Machine :=
  { start [element] [] with
    stack := [element, element], nOpCount := 1, codehash := [OP_DUP], pushed := [element]
    executed := [OP_DUP], depths := [2] }

theorem evaluate_context : context.evaluate 0 (.start [element] [OP_DUP]) = .ok () copied := rfl

/-- As many elements as a stack may have. -/
def full : List Valtype := replicate 1000 []

def endsAbove : EStateM.Result Failure Machine Unit → Bool
  | .ok _ _ => false
  | .error e m => decide (e = .script .stackSize ∧ 1000 < m.depth)

end SafetySample

open SafetySample in
theorem dup_pushes_oversized :
    wp (context.evaluate 0) (fun _ m => ∃ vch ∈ m.pushed, maxScriptElementSize < vch.length)
        (fun _ _ => False) (.start [element] context.script) ∧
      wp (context.evaluate 0) (fun _ _ => False)
        (fun e m => e = .script .stackSize ∧ 1000 < m.depth) (.start full context.script) := by
  constructor
  · show wp (context.evaluate 0) _ _ (.start [element] [OP_DUP])
    rw [wp, evaluate_context]
    refine ⟨element, mem_singleton_self element, ?_⟩
    rw [element, length_replicate]
    decide
  · have hrun : endsAbove (context.evaluate 0 (.start full context.script)) = true := by
      decide +kernel
    unfold wp
    generalize context.evaluate 0 _ = result at hrun ⊢
    cases result with
    | ok u m => cases hrun
    | error e m => exact of_decide_eq_true hrun

end Passion
