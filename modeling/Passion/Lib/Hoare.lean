import Mathlib.Logic.Basic

/-!
# Pre- and postconditions for programs with state and failure

A program of `EStateM` ends with a value or a failure, and leaves a state in both cases. Two
judgements about such programs, each with one rule per construct:

- `wp x Q E s`: run from `s`, the program `x` ends in `Q` if it returns and in `E` if it fails;
- `Refines x y`: where `x` returns, `y` returns the same value and leaves the same state.

A loop runs a bounded number of times, and to need more is a failure of its own; its rule asks for a
measure that makes the bound enough. A `return` from inside a loop is a failure that `returning`
turns into the end of the function, and the local variables of a function stand beside the state
while it runs.
-/

namespace Passion.Lib

variable {ε σ τ α β : Type}

/-! ## Constructs -/

/-- Go on if `c` holds and fail otherwise. -/
def ensure (c : Prop) [Decidable c] (e : ε) : EStateM ε σ Unit :=
  if c then pure () else throw e

/-- `while (cond) body`, for at most `bound` rounds. It fails with `unfinished` if the test holds
after them. -/
def whileLoop (cond : σ → Bool) (body : EStateM ε σ Unit) (unfinished : ε) :
    Nat → EStateM ε σ Unit
  | 0 => fun s => if cond s then .error unfinished s else .ok () s
  | bound + 1 => fun s =>
    if cond s then (body >>= fun _ => whileLoop cond body unfinished bound) s else .ok () s

/-- Run `x` with local variables that start as `t` and go with it. -/
def withLocals (t : τ) (x : EStateM ε (σ × τ) α) : EStateM ε σ α := fun s =>
  match x (s, t) with
  | .ok a s' => .ok a s'.1
  | .error e s' => .error e s'.1

/-- A program that leaves the local variables around it alone. -/
def onOuter (x : EStateM ε σ α) : EStateM ε (σ × τ) α := fun s =>
  match x s.1 with
  | .ok a s' => .ok a (s', s.2)
  | .error e s' => .error e (s', s.2)

/-- The failures that are a `return` end `x` and nothing beyond it. -/
def returning (isReturn : ε → Bool) (x : EStateM ε σ Unit) : EStateM ε σ Unit := fun s =>
  match x s with
  | .ok _ s' => .ok () s'
  | .error e s' => if isReturn e then .ok () s' else .error e s'

/-! ## Postconditions -/

/-- What holds after a run from `s`: `Q` of the value and the state, or `E` of the failure and the
state. -/
def wp (x : EStateM ε σ α) (Q : α → σ → Prop) (E : ε → σ → Prop) (s : σ) : Prop :=
  match x s with
  | .ok a s' => Q a s'
  | .error e s' => E e s'

section

variable {x : EStateM ε σ α} {f : α → EStateM ε σ β} {Q Q' : α → σ → Prop} {E E' : ε → σ → Prop}
  {s : σ}

@[simp] theorem wp_pure {a : α} : wp (pure a : EStateM ε σ α) Q E s ↔ Q a s := Iff.rfl

@[simp] theorem wp_throw {e : ε} : wp (throw e : EStateM ε σ α) Q E s ↔ E e s := Iff.rfl

@[simp] theorem wp_get {Q : σ → σ → Prop} : wp (get : EStateM ε σ σ) Q E s ↔ Q s s := Iff.rfl

@[simp] theorem wp_set {Q : PUnit → σ → Prop} {s' : σ} :
    wp (set s' : EStateM ε σ PUnit) Q E s ↔ Q ⟨⟩ s' := Iff.rfl

@[simp] theorem wp_modify {Q : PUnit → σ → Prop} {g : σ → σ} :
    wp (modify g : EStateM ε σ PUnit) Q E s ↔ Q ⟨⟩ (g s) := Iff.rfl

@[simp] theorem wp_bind {Q : β → σ → Prop} :
    wp (x >>= f) Q E s ↔ wp x (fun a => wp (f a) Q E) E s := by
  simp only [wp, bind, EStateM.bind]
  cases x s with
  | ok a s' => rfl
  | error e s' => rfl

@[simp] theorem wp_ite {c : Prop} [Decidable c] {y : EStateM ε σ α} :
    wp (if c then x else y) Q E s ↔ (c → wp x Q E s) ∧ (¬c → wp y Q E s) := by
  by_cases hc : c
  · simp [hc]
  · simp [hc]

@[simp] theorem wp_ensure {Q : Unit → σ → Prop} {c : Prop} [Decidable c] {e : ε} :
    wp (ensure c e) Q E s ↔ (c → Q () s) ∧ (¬c → E e s) := by
  simp [ensure]

@[simp] theorem wp_withLocals {x : EStateM ε (σ × τ) α} {t : τ} :
    wp (withLocals t x) Q E s ↔ wp x (fun a s' => Q a s'.1) (fun e s' => E e s'.1) (s, t) := by
  simp only [wp, withLocals]
  cases x (s, t) with
  | ok a s' => rfl
  | error e s' => rfl

@[simp] theorem wp_onOuter {Q : α → σ × τ → Prop} {E : ε → σ × τ → Prop} {s : σ × τ} :
    wp (onOuter x) Q E s ↔ wp x (fun a s' => Q a (s', s.2)) (fun e s' => E e (s', s.2)) s.1 := by
  simp only [wp, onOuter]
  cases x s.1 with
  | ok a s' => rfl
  | error e s' => rfl

@[simp] theorem wp_returning {x : EStateM ε σ Unit} {Q : Unit → σ → Prop} {isReturn : ε → Bool} :
    wp (returning isReturn x) Q E s ↔
      wp x Q (fun e s' => if isReturn e then Q () s' else E e s') s := by
  simp only [wp, returning]
  cases x s with
  | ok a s' => rfl
  | error e s' => by_cases hreturn : isReturn e = true <;> simp [hreturn]

theorem wp_mono (hQ : ∀ a s, Q a s → Q' a s) (hE : ∀ e s, E e s → E' e s) (h : wp x Q E s) :
    wp x Q' E' s := by
  unfold wp at *
  cases hx : x s with
  | ok a s' =>
    rw [hx] at h
    exact hQ a s' h
  | error e s' =>
    rw [hx] at h
    exact hE e s' h

theorem wp_seq {Q : β → σ → Prop} {R : α → σ → Prop} (hx : wp x R E s)
    (hf : ∀ a s', R a s' → wp (f a) Q E s') : wp (x >>= f) Q E s :=
  wp_bind.mpr (wp_mono hf (fun _ _ => id) hx)

theorem wp_of_ok {a : α} {s' : σ} (h : wp x Q E s) (hx : x s = .ok a s') : Q a s' := by
  simpa [wp, hx] using h

section

variable {cond : σ → Bool} {body : EStateM ε σ Unit} {unfinished : ε} {bound : Nat}
  {Q : Unit → σ → Prop}

theorem wp_whileLoop_succ (hc : cond s = true) :
    wp (whileLoop cond body unfinished (bound + 1)) Q E s ↔
      wp body (fun _ => wp (whileLoop cond body unfinished bound) Q E) E s := by
  rw [← wp_bind]
  simp [wp, whileLoop, hc]

theorem wp_whileLoop_done (hc : cond s = false) :
    wp (whileLoop cond body unfinished bound) Q E s ↔ Q () s := by
  cases bound <;> simp [wp, whileLoop, hc]

/-- **What a round keeps, the loop keeps.** Each round lowers `size`, so a bound of `size` is enough
for the loop to end by its test: nothing is asked of `unfinished`. -/
theorem wp_whileLoop {I : σ → Prop} {size : σ → Nat}
    (hbody : ∀ s, I s → cond s = true → wp body (fun _ s' => I s' ∧ size s' < size s) E s)
    (hs : I s) (hbound : size s ≤ bound) (hzero : ∀ s, size s = 0 → cond s = false) :
    wp (whileLoop cond body unfinished bound) (fun _ s' => I s' ∧ cond s' = false) E s := by
  induction bound generalizing s with
  | zero =>
    have hc := hzero s (Nat.le_zero.mp hbound)
    exact (wp_whileLoop_done hc).mpr ⟨hs, hc⟩
  | succ bound ih =>
    cases hc : cond s with
    | false => exact (wp_whileLoop_done hc).mpr ⟨hs, hc⟩
    | true =>
      refine (wp_whileLoop_succ hc).mpr (wp_mono ?_ (fun _ _ => id) (hbody s hs hc))
      intro _ s' ⟨hs', hlt⟩
      exact ih hs' (by omega)

end

end

/-! ## Refinement -/

/-- Where `x` returns, `y` returns the same. -/
def Refines (x y : EStateM ε σ α) : Prop := ∀ s a s', x s = .ok a s' → y s = .ok a s'

namespace Refines

variable {x y : EStateM ε σ α} {f g : α → EStateM ε σ β}

theorem refl (x : EStateM ε σ α) : Refines x x := fun _ _ _ => id

theorem bind (hxy : Refines x y) (hfg : ∀ a, Refines (f a) (g a)) :
    Refines (x >>= f) (y >>= g) := by
  intro s b s'' h
  simp only [Bind.bind, EStateM.bind] at h ⊢
  cases hx : x s with
  | error e s' =>
    rw [hx] at h
    cases h
  | ok a s' =>
    rw [hx] at h
    rw [hxy s a s' hx]
    exact hfg a s' b s'' h

theorem seq (hfg : ∀ a, Refines (f a) (g a)) : Refines (x >>= f) (x >>= g) := (refl x).bind hfg

theorem ensure {c d : Prop} [Decidable c] [Decidable d] {e e' : ε} (hcd : c → d) :
    Refines (ensure c e : EStateM ε σ Unit) (ensure d e') := by
  intro s a s' h
  by_cases hc : c
  · simpa [Lib.ensure, hc, hcd hc] using h
  · simp only [hc] at h
    cases h

theorem ite {c : Prop} [Decidable c] {x' y' : EStateM ε σ α} (hxy : Refines x y)
    (hxy' : Refines x' y') : Refines (if c then x else x') (if c then y else y') := by
  split
  · exact hxy
  · exact hxy'

theorem whileLoop {cond : σ → Bool} {body body' : EStateM ε σ Unit} (h : Refines body body')
    (unfinished : ε) (bound : Nat) :
    Refines (whileLoop cond body unfinished bound) (whileLoop cond body' unfinished bound) := by
  induction bound with
  | zero => exact refl _
  | succ bound ih =>
    intro s a s' hrun
    simp only [Lib.whileLoop] at hrun ⊢
    split at hrun
    · rename_i hc
      rw [if_pos hc]
      exact h.bind (fun _ => ih) s a s' hrun
    · rename_i hc
      rwa [if_neg hc]

end Refines

end Passion.Lib
