import Passion.Masternode.ColdStake
import Passion.Script.Interpreter
import Passion.Script.Standard

/-!
# Spending a delegated coin

A delegation script lets two keys spend a coin: the owner's key, and the staker's key inside a
valid cold stake. An accepted input leaves a signature, a selector and a public key on the stack.
The signature is one of that key, which hashes to the owner's, or to the staker's if the selector
says so; and then `CheckColdStake` holds of this very script.

**Idea.** The input script is run before and shares only the stack with the delegation script: its
open conditionals and its alternative stack do not survive it. So the delegation script is executed
symbolically from an arbitrary stack. `Leads v x P` follows what its opcodes read of a machine, a
`View`, and says nothing where the program fails.

Main result: `verifyScript_delegation`.
-/

namespace Passion

open CScript ScriptM Lib ScriptContext

/-! ## The checker of a transaction -/

/-- `TransactionSignatureChecker`. The hash that is signed and the signature scheme are
parameters. -/
structure TransactionSignatureChecker where
  txTo : CTransaction
  nIn : Nat
  amount : CAmount
  /-- `SignatureHash(scriptCode, txTo, nIn, nHashType, amount, sigversion)`. -/
  signatureHash : CScript → CTransaction → Nat → UInt8 → CAmount → SigVersion → UInt256
  /-- `VerifySignature(vchSig, pubkey, sighash)`. -/
  verifySignature : Valtype → Valtype → UInt256 → Bool
  checkLockTime : Int → Bool

namespace TransactionSignatureChecker

variable (checker : TransactionSignatureChecker)

def checkSig (vchSigIn vchPubKey : Valtype) (scriptCode : CScript) (sigversion : SigVersion) :
    Bool :=
  -- `IsValid` of a key that is made of these bytes
  if !CPubKey.validSize vchPubKey then false
  else
    -- the hash type is the last byte of the signature
    match vchSigIn.getLast? with
    | none => false
    | some nHashType =>
      checker.verifySignature vchSigIn.dropLast vchPubKey
        (checker.signatureHash scriptCode checker.txTo checker.nIn nHashType checker.amount
          sigversion)

def toBase : BaseSignatureChecker where
  checkSig := checker.checkSig
  checkLockTime := checker.checkLockTime
  checkColdStake := checkColdStake checker.txTo checker.amount

end TransactionSignatureChecker

/-! ## Views -/

/-- What the opcodes of a delegation script read of a machine. -/
structure View where
  stack : List Valtype
  vfExec : List Bool
  pc : CScript
  codehash : CScript

def Machine.view (m : Machine) : View := ⟨m.stack, m.vfExec, m.pc, m.codehash⟩

/-- From a machine that shows `v`, the program fails or ends in a machine whose view is in `P`. -/
def Leads (v : View) (x : ScriptM Unit) (P : View → Prop) : Prop :=
  ∀ m : Machine, m.view = v → wp x (fun _ m' => P m'.view) (fun _ _ => True) m

abbrev loopFrom (ctx : ScriptContext) (flags : ScriptFlags) (bound : Nat) : ScriptM Unit :=
  whileLoop (fun m => !m.pc.isEmpty) (ctx.step flags) .unfinished bound

open Machine

namespace Leads

variable {st : List Valtype} {vf : List Bool} {pc code : CScript} {P : View → Prop}
  (ctx : ScriptContext) (flags : ScriptFlags)

theorem dup (h : ∀ a rest, st = a :: rest → P ⟨a :: a :: rest, vf, pc, code⟩) :
    Leads ⟨st, vf, pc, code⟩ (stackOp .dup) P := by
  intro m hm
  cases hm
  match hs : m.stack with
  | [] => simp [stackOp, need, hs]
  | a :: rest => simpa [stackOp, need, wp_stacktop, hs, view] using h a rest hs

theorem rot (h : ∀ a b c rest, st = c :: b :: a :: rest → P ⟨a :: c :: b :: rest, vf, pc, code⟩) :
    Leads ⟨st, vf, pc, code⟩ (stackOp .rot) P := by
  intro m hm
  cases hm
  match hs : m.stack with
  | [] | [_] | [_, _] => simp [stackOp, need, hs]
  | c :: b :: a :: rest =>
    simpa [stackOp, need, swapTop, wp_stacktop, hs, view] using h a b c rest hs

theorem hash (op : HashOp)
    (h : ∀ a rest, st = a :: rest → P ⟨op.apply ctx.crypto a :: rest, vf, pc, code⟩) :
    Leads ⟨st, vf, pc, code⟩ (ctx.hash op) P := by
  intro m hm
  cases hm
  match hs : m.stack with
  | [] => simp [ScriptContext.hash, need, hs]
  | a :: rest =>
    simpa [ScriptContext.hash, need, wp_stacktop, hs, view] using h a rest hs

theorem cond (h : ∀ a rest, st = a :: rest → P ⟨rest, castToBool a :: vf, pc, code⟩) :
    Leads ⟨st, vf, pc, code⟩ (cond true false) P := by
  intro m hm
  cases hm
  match hs : m.stack with
  | [] => simp [ScriptM.cond, condValue, hs]
  | a :: rest =>
    simpa [ScriptM.cond, condValue, wp_stacktop, hs, view] using h a rest hs

theorem else_ {b : Bool} (h : P ⟨st, (!b) :: vf, pc, code⟩) :
    Leads ⟨st, b :: vf, pc, code⟩ else_ P := by
  intro m hm
  obtain ⟨rfl, hvf, rfl, rfl⟩ := (View.mk.injEq ..).mp hm
  simpa [else_, hvf, view] using h

theorem endIf {b : Bool} (h : P ⟨st, vf, pc, code⟩) : Leads ⟨st, b :: vf, pc, code⟩ endIf P := by
  intro m hm
  obtain ⟨rfl, hvf, rfl, rfl⟩ := (View.mk.injEq ..).mp hm
  simpa [endIf, hvf, view] using h

theorem equalVerify (h : ∀ a rest, st = a :: a :: rest → P ⟨rest, vf, pc, code⟩) :
    Leads ⟨st, vf, pc, code⟩ (equal true) P := by
  intro m hm
  cases hm
  match hs : m.stack with
  | [] | [_] => simp [equal, need, hs]
  | b :: a :: rest =>
    by_cases hab : a = b
    · subst hab
      simpa [equal, need, wp_stacktop, pushBool, verifyResult, hs, view]
        using h a rest hs
    · simp [equal, need, wp_stacktop, pushBool, verifyResult, hs, hab]

theorem checkSig (h : ∀ vchSig vchPubKey rest, st = vchPubKey :: vchSig :: rest →
      P ⟨(if ctx.checker.checkSig vchSig vchPubKey (findAndDelete code (pushData vchSig))
        ctx.sigversion then [1] else []) :: rest, vf, pc, code⟩) :
    Leads ⟨st, vf, pc, code⟩ (ctx.checkSig flags false) P := by
  intro m hm
  cases hm
  match hs : m.stack with
  | [] | [_] => simp [checkSig, need, hs]
  | vchPubKey :: vchSig :: rest =>
    have hP := h vchSig vchPubKey rest hs
    simpa [checkSig, checkEncodings, noteCheck, need, pushBool, verifyResult,
      wp_stacktop, hs, view] using fun _ _ => hP

theorem require {c : Prop} [Decidable c] {e : ScriptError} (h : c → P ⟨st, vf, pc, code⟩) :
    Leads ⟨st, vf, pc, code⟩ (ScriptM.require c e) P := by
  intro m hm
  cases hm
  simpa [view] using h

/-! ## Rounds of the loop -/

variable {ctx flags} {opcode : UInt8} {vchPushValue : Valtype} {rest : CScript} {bound : Nat}

theorem loop (hpc : pc ≠ [])
    (h : Leads ⟨st, vf, pc, code⟩ (ctx.step flags) fun v => Leads v (loopFrom ctx flags bound) P) :
    Leads ⟨st, vf, pc, code⟩ (loopFrom ctx flags (bound + 1)) P := by
  intro m hm
  have hm' := hm
  cases hm'
  refine (wp_whileLoop_succ (by simpa using hpc)).mpr ?_
  exact wp_mono (fun _ m' hm' => hm' m' rfl) (fun _ _ => id) (h m hm)

theorem loop_done (h : P ⟨st, vf, [], code⟩) :
    Leads ⟨st, vf, [], code⟩ (loopFrom ctx flags bound) P := by
  intro m hm
  obtain ⟨rfl, rfl, hpc, rfl⟩ := (View.mk.injEq ..).mp hm
  refine (wp_whileLoop_done (by simp [hpc])).mpr ?_
  rw [view, hpc]
  exact h

section

variable (hread : getOp pc = some (opcode, vchPushValue, rest))

include hread

/-- A round is the dispatch of the opcode that it reads, as far as a view shows. -/
theorem round (h : Leads ⟨st, vf, rest, code⟩ (ctx.dispatch flags opcode vchPushValue) fun v =>
      Leads v (loopFrom ctx flags bound) P) :
    Leads ⟨st, vf, pc, code⟩ (loopFrom ctx flags (bound + 1)) P := by
  refine loop (by rintro rfl; cases hread) ?_
  intro m hm
  cases hm
  have hdispatch : ∀ k, wp (ctx.dispatch flags opcode vchPushValue) (fun _ => wp limitDepth
        (fun _ m' => Leads m'.view (loopFrom ctx flags bound) P) fun _ _ => True)
      (fun _ _ => True) { m with pc := rest, nOpCount := k } := by
    intro k
    refine wp_mono ?_ (fun _ _ => id) (h { m with pc := rest, nOpCount := k } rfl)
    intro _ m' hm'
    simp only [limitDepth, wp_bind, wp_modify, wp_get, wp_require]
    exact ⟨fun _ => hm', fun _ => trivial⟩
  simp only [step, fetch, countOp,
    countOps, wp_bind, wp_get, hread, wp_set, wp_pure, wp_require, wp_ite, wp_modify,
    implies_true, and_true]
  exact fun _ => ⟨fun _ _ _ => hdispatch _, fun _ _ => hdispatch _⟩

theorem round_exec
    (hrun : vf.all id = true ∨ (OP_IF ≤ opcode ∧ opcode ≤ OP_ENDIF))
    (h : Leads ⟨st, vf, rest, code⟩ (ctx.exec flags (vf.all id) (decode opcode)) fun v =>
      Leads v (loopFrom ctx flags bound) P) (hop : OP_PUSHDATA4 < opcode := by decide) :
    Leads ⟨st, vf, pc, code⟩ (loopFrom ctx flags (bound + 1)) P := by
  refine round hread fun m hm => ?_
  cases hm
  have hrun' : m.fExec = true ∨ (OP_IF ≤ opcode ∧ opcode ≤ OP_ENDIF) := hrun
  simp only [dispatch, wp_bind, wp_get]
  rw [if_neg fun hpush => absurd hpush.2 (UInt8.not_le.mpr hop), if_pos hrun']
  exact h { m with executed := opcode :: m.executed } rfl

theorem round_push (hrun : vf.all id = true)
    (h : Leads ⟨vchPushValue :: st, vf, rest, code⟩ (loopFrom ctx flags bound) P)
    (hop : opcode ≤ OP_PUSHDATA4 := by decide) :
    Leads ⟨st, vf, pc, code⟩ (loopFrom ctx flags (bound + 1)) P := by
  refine round hread fun m hm => ?_
  cases hm
  simp only [dispatch, noteExecuted, wp_bind, wp_get]
  rw [if_pos ⟨hrun, hop⟩]
  simp only [wp_bind, wp_modify, wp_require]
  exact ⟨fun _ => h, fun _ => trivial⟩

theorem round_skip (hskip : vf.all id = false)
    (h : Leads ⟨st, vf, rest, code⟩ (loopFrom ctx flags bound) P)
    (hop : ¬(OP_IF ≤ opcode ∧ opcode ≤ OP_ENDIF) := by decide) :
    Leads ⟨st, vf, pc, code⟩ (loopFrom ctx flags (bound + 1)) P := by
  refine round hread fun m hm => ?_
  cases hm
  have hfalse : m.fExec = false := hskip
  simpa [dispatch, hfalse, hop, view] using h

end

end Leads

/-! ## The delegation script -/

section

variable (crypto : ScriptCrypto) (checker : BaseSignatureChecker) (sigversion : SigVersion)
  (stakerKey ownerKey : CKeyID)

/-- What permits the spending of a delegated coin: a stack with a valid signature over the script,
a selector, and the key of the one that the selector names. -/
def MaySpend (stack : List Valtype) : Prop :=
  ∃ vchPubKey selector vchSig rest, stack = vchPubKey :: selector :: vchSig :: rest ∧
    checker.checkSig vchSig vchPubKey
      (findAndDelete (getScriptForStakeDelegation stakerKey ownerKey) (pushData vchSig))
      sigversion = true ∧
    (castToBool selector = false ∧ crypto.hash160 vchPubKey = ownerKey.bytes ∨
      castToBool selector = true ∧ crypto.hash160 vchPubKey = stakerKey.bytes ∧
        checker.checkColdStake (getScriptForStakeDelegation stakerKey ownerKey) = true)

theorem getOp_key (key : CKeyID) (rest : CScript) :
    getOp (0x14 :: (key.bytes ++ rest)) = some (0x14, key.bytes, rest) := by
  have hlt : 0x14 < OP_PUSHDATA1 := by decide
  have hlen : 20 ≤ key.bytes.length + rest.length := by
    rw [key.length_bytes]
    omega
  have htake : (key.bytes ++ rest).take 20 = key.bytes := by
    rw [← key.length_bytes, List.take_left]
  have hdrop : (key.bytes ++ rest).drop 20 = rest := by
    rw [← key.length_bytes, List.drop_left]
  simp [getOp, hlt, hlen, htake, hdrop]

variable {crypto checker sigversion stakerKey ownerKey} {flags : ScriptFlags}

variable {vchPubKey : Valtype} {st : List Valtype} {ctx : ScriptContext} {code : CScript}
  {bound : Nat} {C : Prop}

/-- The public key hashes to `key`, and the signature below it is one of it. -/
def Signs (ctx : ScriptContext) (code : CScript) (vchPubKey : Valtype) (st : List Valtype)
    (key : CKeyID) : Prop :=
  ctx.crypto.hash160 vchPubKey = key.bytes ∧ ∃ vchSig rest, st = vchSig :: rest ∧
    ctx.checker.checkSig vchSig vchPubKey (findAndDelete code (pushData vchSig)) ctx.sigversion =
      true

/-- The end of the script: the hash is the key that the branch has pushed, and the key that was
hashed has signed. -/
theorem leads_ending {key : CKeyID} {b : Bool} (h : Signs ctx code vchPubKey st key → C) :
    Leads ⟨key.bytes :: ctx.crypto.hash160 vchPubKey :: vchPubKey :: st, [b],
        [OP_ENDIF, OP_EQUALVERIFY, OP_CHECKSIG], code⟩
      (loopFrom ctx flags (bound + 3)) fun v => checkTop v.stack = .ok () → C := by
  refine Leads.round_exec rfl (.inr (by decide)) (Leads.endIf ?_)
  refine Leads.round_exec rfl (.inl rfl) (Leads.equalVerify ?_)
  intro a rest hequal
  refine Leads.round_exec rfl (.inl rfl) (Leads.checkSig ctx flags ?_)
  intro vchSig vchPubKey' rest' hsig
  obtain ⟨rfl, hhash, hrest⟩ : key.bytes = a ∧ ctx.crypto.hash160 vchPubKey = a ∧
      vchPubKey :: st = rest := by simpa using hequal
  obtain ⟨rfl, rfl⟩ : vchPubKey = vchPubKey' ∧ st = vchSig :: rest' := by
    simpa [← hrest] using hsig
  refine Leads.loop_done fun htop => h ⟨hhash, vchSig, rest', rfl, ?_⟩
  -- a failed check leaves an empty element, which is false
  by_contra hcheck
  simp [hcheck, checkTop, castToBool] at htop

abbrev branches (stakerKey ownerKey : CKeyID) : CScript :=
  OP_CHECKCOLDSTAKEVERIFY :: 0x14 :: (stakerKey.bytes ++ OP_ELSE ::
    0x14 :: (ownerKey.bytes ++ [OP_ENDIF, OP_EQUALVERIFY, OP_CHECKSIG]))

theorem leads_stakerBranch
    (h : ctx.checker.checkColdStake ctx.script = true → Signs ctx code vchPubKey st stakerKey →
      C) :
    Leads ⟨ctx.crypto.hash160 vchPubKey :: vchPubKey :: st, [true],
        branches stakerKey ownerKey, code⟩
      (loopFrom ctx flags (bound + 7)) fun v => checkTop v.stack = .ok () → C := by
  refine Leads.round_exec rfl (.inl rfl) (Leads.require fun hstake => ?_)
  refine Leads.round_push (getOp_key ..) rfl ?_
  refine Leads.round_exec rfl (.inr (by decide)) (Leads.else_ ?_)
  refine Leads.round_skip (getOp_key ..) rfl ?_
  exact leads_ending (h hstake)

theorem leads_ownerBranch (h : Signs ctx code vchPubKey st ownerKey → C) :
    Leads ⟨ctx.crypto.hash160 vchPubKey :: vchPubKey :: st, [false],
        branches stakerKey ownerKey, code⟩
      (loopFrom ctx flags (bound + 7)) fun v => checkTop v.stack = .ok () → C := by
  refine Leads.round_skip rfl rfl ?_
  refine Leads.round_skip (getOp_key ..) rfl ?_
  refine Leads.round_exec rfl (.inr (by decide)) (Leads.else_ ?_)
  refine Leads.round_push (getOp_key ..) rfl ?_
  exact leads_ending h

/-- **From any stack, the delegation script leaves a true value only where the coin may be
spent.** -/
theorem leads_delegation {s : CScript} (hs : s = getScriptForStakeDelegation stakerKey ownerKey)
    {st : List Valtype} {bound : Nat} :
    Leads ⟨st, [], s, s⟩ (loopFrom ⟨crypto, checker, sigversion, s⟩ flags (bound + 11))
      fun v => checkTop v.stack = .ok () →
        MaySpend crypto checker sigversion stakerKey ownerKey st := by
  generalize hctx : (⟨crypto, checker, sigversion, s⟩ : ScriptContext) = ctx
  conv => arg 1; arg 3; rw [hs, getScriptForStakeDelegation]; simp [CKeyID.pushData_bytes]
  -- ( … selector pubkey -- … pubkey hash selector )
  refine Leads.round_exec rfl (.inl rfl) (Leads.dup ?_)
  intro vchPubKey rest hdup
  refine Leads.round_exec rfl (.inl rfl) (Leads.hash ctx .hash160 ?_)
  intro a rest' hhash
  obtain ⟨rfl, rfl⟩ : vchPubKey = a ∧ vchPubKey :: rest = rest' := by simpa using hhash
  refine Leads.round_exec rfl (.inl rfl) (Leads.rot ?_)
  intro selector b c st' hrot
  obtain ⟨rfl, rfl, rfl⟩ : HashOp.apply ctx.crypto .hash160 vchPubKey = c ∧ vchPubKey = b ∧
      rest = selector :: st' := by simpa using hrot
  refine Leads.round_exec rfl (.inl rfl) (Leads.cond ?_)
  intro a rest hcond
  obtain ⟨rfl, rfl⟩ : selector = a ∧
      HashOp.apply ctx.crypto .hash160 vchPubKey :: vchPubKey :: st' = rest := by simpa using hcond
  subst hctx
  cases hselector : castToBool selector with
  | true =>
    refine leads_stakerBranch fun hstake hsigns => ?_
    obtain ⟨hkey, vchSig, rest, rfl, hcheck⟩ := hsigns
    rw [hs] at hcheck hstake
    exact ⟨_, _, vchSig, rest, hdup, hcheck, .inr ⟨hselector, hkey, hstake⟩⟩
  | false =>
    refine leads_ownerBranch fun hsigns => ?_
    obtain ⟨hkey, vchSig, rest, rfl, hcheck⟩ := hsigns
    rw [hs] at hcheck
    exact ⟨_, _, vchSig, rest, hdup, hcheck, .inl ⟨hselector, hkey⟩⟩

theorem wp_evaluate_delegation (stack : List Valtype) :
    let s := getScriptForStakeDelegation stakerKey ownerKey
    wp (evaluate ⟨crypto, checker, sigversion, s⟩ flags) (fun _ m => checkTop m.stack = .ok () →
        MaySpend crypto checker sigversion stakerKey ownerKey stack)
      (fun _ _ => True) (start stack s) := by
  intro s
  have hlen : s.length = 40 + 11 := CKeyID.length_delegation stakerKey ownerKey
  have hloop := @leads_delegation crypto checker sigversion stakerKey ownerKey flags s rfl stack 40
  simp only [evaluate, wp_bind, wp_require, hlen]
  refine ⟨fun _ => wp_mono ?_ (fun _ _ => id) (hloop (start stack s) rfl), fun _ => trivial⟩
  intro _ m hm
  exact wp_require.mpr ⟨fun _ => hm, fun _ => trivial⟩

/-- The stack that an accepted input leaves to a delegation script permits the spending. -/
theorem maySpend_of_verifyScript {scriptSig : CScript}
    (h : verifyScript crypto checker sigversion flags scriptSig
      (getScriptForStakeDelegation stakerKey ownerKey) = .ok ()) :
    ∃ stack, evalScript ⟨crypto, checker, sigversion, scriptSig⟩ flags [] = .ok stack ∧
      MaySpend crypto checker sigversion stakerKey ownerKey stack := by
  obtain ⟨_, _, h⟩ := bind_eq_ok.mp h
  obtain ⟨stackCopy, hcopy, h⟩ := bind_eq_ok.mp h
  obtain ⟨stack, heval, h⟩ := bind_eq_ok.mp h
  obtain ⟨_, htop, _⟩ := bind_eq_ok.mp h
  obtain ⟨m, hm, rfl⟩ := evalScript_eq_ok.mp heval
  exact ⟨stackCopy, hcopy, wp_of_ok (wp_evaluate_delegation stackCopy) hm htop⟩

end

/-- **Only the owner, or the staker in a valid cold stake, spends a delegated coin.** The signature
and the key that were checked are those that the input script leaves on the stack, with a selector
between them. -/
theorem verifyScript_delegation {crypto : ScriptCrypto} {checker : TransactionSignatureChecker}
    {sigversion : SigVersion} {flags : ScriptFlags} {stakerKey ownerKey : CKeyID}
    {scriptSig : CScript}
    (h : verifyScript crypto checker.toBase sigversion flags scriptSig
      (getScriptForStakeDelegation stakerKey ownerKey) = .ok ()) :
    ∃ vchPubKey selector vchSig rest,
      evalScript ⟨crypto, checker.toBase, sigversion, scriptSig⟩ flags [] =
        .ok (vchPubKey :: selector :: vchSig :: rest) ∧
      checker.checkSig vchSig vchPubKey
        (findAndDelete (getScriptForStakeDelegation stakerKey ownerKey) (pushData vchSig))
        sigversion = true ∧
      (castToBool selector = false ∧ crypto.hash160 vchPubKey = ownerKey.bytes ∨
        castToBool selector = true ∧ crypto.hash160 vchPubKey = stakerKey.bytes ∧
          checkColdStake checker.txTo checker.amount
            (getScriptForStakeDelegation stakerKey ownerKey) = true) := by
  obtain ⟨_, hstack, vchPubKey, selector, vchSig, rest, rfl, hspend⟩ := maySpend_of_verifyScript h
  exact ⟨vchPubKey, selector, vchSig, rest, hstack, hspend⟩

namespace DelegationSample

open ColdStakeSample (key)

/-- A coin whose staker has the key of hash zero. -/
def script : CScript := getScriptForStakeDelegation (key 0) (key 1)

/-- A coinstake that pays to the script again. -/
def checker : TransactionSignatureChecker where
  txTo :=
    { nVersion := 1, nType := 0, vin := [⟨⟨1, 0⟩, [], 0⟩], vout := [⟨0, []⟩, ⟨1001, script⟩]
      sapData := none, extraPayload := none, hash := 2 }
  nIn := 0
  amount := 1000
  signatureHash _ _ _ _ _ _ := 0
  verifySignature _ _ _ := true
  checkLockTime _ := false

/-- `<sig> OP_1 <pubkey>`. -/
def scriptSig : CScript :=
  pushData [0x30, 1] ++ [OP_1] ++ pushData (0x02 :: List.replicate 32 0)

end DelegationSample

open DelegationSample in
/-- The staker's key and its signature were checked, in a cold stake. -/
theorem verifyScript_delegation_staker :
    verifyScript .sample checker.toBase .base SCRIPT_VERIFY_P2SH scriptSig script = .ok () ∧
      checker.checkSig [0x30, 1] (0x02 :: List.replicate 32 0)
        (findAndDelete script (pushData [0x30, 1])) .base = true ∧
      checkColdStake checker.txTo checker.amount script = true := by
  have h : verifyScript .sample checker.toBase .base SCRIPT_VERIFY_P2SH scriptSig script =
      .ok () := by
    decide +kernel
  have hstack : evalScript ⟨.sample, checker.toBase, .base, scriptSig⟩ SCRIPT_VERIFY_P2SH [] =
      .ok [0x02 :: List.replicate 32 0, [1], [0x30, 1]] := by
    decide +kernel
  obtain ⟨_, _, _, _, hleft, hcheck, hspend⟩ := verifyScript_delegation h
  cases hstack.symm.trans hleft
  exact ⟨h, hcheck, (hspend.resolve_left fun howner => absurd howner.1 (by decide)).2.2⟩

end Passion
