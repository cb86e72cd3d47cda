import Mathlib.Logic.Basic

/-!
# Programs over commands

A program calls commands, each with an answer of its own type, and may stop with an error. What a
command does is given by a `Handler` on a type of states, so one program runs on several kinds of
state.

**Simulation.** If one handler simulates another command by command, it simulates it on every
program (`Simulates.run`). The simulated handler may refuse a command
with an error that is `bad`; nothing is then said about the other one. So a contract of a command
is written as a refusal, and a run that ends without a bad error has met every contract.
-/

namespace Passion.Lib

/-! ## Checks that succeed -/

section

variable {ε α β : Type}

theorem bind_eq_ok {x : Except ε α} {f : α → Except ε β} {b : β} :
    (x >>= f) = .ok b ↔ ∃ a, x = .ok a ∧ f a = .ok b := by
  cases x with
  | error e => simp [bind, Except.bind]
  | ok a => simp [bind, Except.bind]

variable {l : List α}

theorem forM_eq_ok {f : α → Except ε PUnit} {u : PUnit} (h : l.forM f = .ok u) :
    ∀ a ∈ l, f a = .ok () := by
  induction l with
  | nil => exact nofun
  | cons a l ih =>
    obtain ⟨_, ha, hl⟩ := bind_eq_ok.1 (show (f a >>= fun _ => l.forM f) = .ok u from h)
    intro b hb
    rcases List.mem_cons.mp hb with rfl | hb
    · exact ha
    · exact ih hl b hb

theorem forM_ok {f : α → Except ε PUnit} (h : ∀ a ∈ l, f a = .ok ()) : l.forM f = .ok () := by
  induction l with
  | nil => rfl
  | cons a l ih =>
    show (f a >>= fun _ => l.forM f) = .ok ()
    obtain ⟨ha, hl⟩ := List.forall_mem_cons.mp h
    rw [ha]
    exact ih hl

/-- What every turn of a loop keeps, together with the elements it has seen. -/
theorem foldlM_ok_induction {f : β → α → Except ε β} {P : List α → β → Prop} {b b' : β}
    (hstart : P [] b) (hstep : ∀ seen a c c', P seen c → f c a = .ok c' → P (seen ++ [a]) c')
    (hrun : l.foldlM f b = .ok b') : P l b' := by
  suffices h : ∀ seen c, P seen c → l.foldlM f c = .ok b' → P (seen ++ l) b' from
    h [] b hstart hrun
  clear hrun
  induction l with
  | nil =>
    intro seen c h hrun
    cases hrun
    rwa [List.append_nil]
  | cons a l ih =>
    intro seen c h hrun
    obtain ⟨c', hc', hrun⟩ := bind_eq_ok.1 hrun
    have hrest := ih _ c' (hstep seen a c c' h hc') hrun
    rwa [List.append_assoc] at hrest

theorem map_of_mapM_eq_ok {γ : Type} {f : α → Except ε β} {p : β → γ} {q : α → γ}
    (hf : ∀ a b, f a = .ok b → p b = q a) {bs : List β} (h : l.mapM f = .ok bs) :
    bs.map p = l.map q := by
  induction l generalizing bs with
  | nil =>
    cases h
    rfl
  | cons a l ih =>
    rw [List.mapM_cons] at h
    obtain ⟨b, hb, h⟩ := bind_eq_ok.1 h
    obtain ⟨bs', hbs, h⟩ := bind_eq_ok.1 h
    cases h
    rw [List.map_cons, List.map_cons, hf a b hb, ih hbs]

end

/-! ## Programs -/

/-- Programs that call commands `c : C` with answers in `R c`, and stop with errors of type `E`. -/
inductive Prog (C : Type) (R : C → Type) (E : Type) (α : Type) : Type where
  | ret (a : α)
  | throw (e : E)
  | op (c : C) (next : R c → Prog C R E α)

abbrev Handler (C : Type) (R : C → Type) (E S : Type) := (c : C) → S → Except E (R c × S)

namespace Prog

variable {C : Type} {R : C → Type} {E S T α β : Type}

protected def bind : Prog C R E α → (α → Prog C R E β) → Prog C R E β
  | ret a, f => f a
  | throw e, _ => throw e
  | op c next, f => op c fun r => (next r).bind f

instance : Monad (Prog C R E) where
  pure := ret
  bind := Prog.bind

theorem bind_pure' (p : Prog C R E α) : p.bind ret = p := by
  induction p with
  | ret a => rfl
  | throw e => rfl
  | op c next ih => exact congrArg (op c) (funext ih)

theorem bind_assoc' {γ : Type} (p : Prog C R E α) (f : α → Prog C R E β) (g : β → Prog C R E γ) :
    (p.bind f).bind g = p.bind fun a => (f a).bind g := by
  induction p with
  | ret a => rfl
  | throw e => rfl
  | op c next ih => exact congrArg (op c) (funext ih)

instance : LawfulMonad (Prog C R E) :=
  LawfulMonad.mk' _ bind_pure' (fun _ _ => rfl) bind_assoc'

def call (c : C) : Prog C R E (R c) := op c ret

def run (h : Handler C R E S) : Prog C R E α → S → Except E (α × S)
  | ret a, s => .ok (a, s)
  | throw e, _ => .error e
  | op c next, s =>
    match h c s with
    | .error e => .error e
    | .ok (r, s) => (next r).run h s

variable (h : Handler C R E S)

@[simp] theorem run_pure (a : α) (s : S) : run h (Pure.pure a : Prog C R E α) s = .ok (a, s) := rfl

@[simp] theorem run_call (c : C) (s : S) : run h (call c) s = h c s := by
  unfold call run
  cases h c s with
  | error e => rfl
  | ok r => rfl

@[simp] theorem run_bind (p : Prog C R E α) (f : α → Prog C R E β) (s : S) : run h (p >>= f) s =
      match run h p s with
      | .error e => .error e
      | .ok (a, s) => run h (f a) s := by
  show run h (p.bind f) s = _
  induction p generalizing s with
  | ret a => rfl
  | throw e => rfl
  | op c next ih =>
    simp only [Prog.bind, run]
    cases h c s with
    | error e => rfl
    | ok r => exact ih r.1 r.2

@[simp] theorem run_map (f : α → β) (p : Prog C R E α) (s : S) : run h (f <$> p) s =
      match run h p s with
      | .error e => .error e
      | .ok (a, s) => .ok (f a, s) :=
  run_bind h p (fun a => Pure.pure (f a)) s

variable {h} in
theorem run_bind_ok {p : Prog C R E α} {f : α → Prog C R E β} {s s' : S} {b : β} :
    run h (p >>= f) s = .ok (b, s') ↔
      ∃ a t, run h p s = .ok (a, t) ∧ run h (f a) t = .ok (b, s') := by
  rw [run_bind]
  cases run h p s with
  | error e => simp
  | ok r =>
    constructor
    · exact fun hf => ⟨r.1, r.2, rfl, hf⟩
    · rintro ⟨a, t, hr, hf⟩
      cases hr
      exact hf

/-! ### Programs that avoid an error -/

/-- From the state `s` the program does not stop with a `bad` error. -/
def Avoids (bad : E → Prop) (s : S) (p : Prog C R E α) : Prop :=
  ∀ e, run h p s = .error e → ¬ bad e

section

variable {h} {bad : E → Prop} {s : S}

theorem avoids_pure (a : α) : Avoids h bad s (Pure.pure a : Prog C R E α) := nofun

theorem avoids_of_ok {p : Prog C R E α} {a : α} {t : S} (hp : run h p s = .ok (a, t)) :
    Avoids h bad s p := by
  intro e he
  rw [hp] at he
  cases he

theorem avoids_bind {p : Prog C R E α} {f : α → Prog C R E β} (hp : Avoids h bad s p)
    (hf : ∀ a t, run h p s = .ok (a, t) → Avoids h bad t (f a)) : Avoids h bad s (p >>= f) := by
  intro e he
  rw [run_bind] at he
  cases hrun : run h p s with
  | error e' =>
    rw [hrun] at he
    cases he
    exact hp e hrun
  | ok r =>
    rw [hrun] at he
    exact hf r.1 r.2 hrun e he

end

/-! ### The commands that a program may call -/

/-- Every command of the program is in `A`, and it throws no `bad` error of its own. -/
def Within (A : C → Prop) (bad : E → Prop) : Prog C R E α → Prop
  | ret _ => True
  | throw e => ¬ bad e
  | op c next => A c ∧ ∀ r, (next r).Within A bad

def Returns : Prog C R E α → α → Prop
  | ret b, a => b = a
  | throw _, _ => False
  | op _ next, a => ∃ r, (next r).Returns a

section

variable {h} {A : C → Prop} {bad : E → Prop} {p : Prog C R E α}

theorem within_all (p : Prog C R E α) : Within (fun _ => True) (fun _ => False) p := by
  induction p with
  | ret a => trivial
  | throw e => exact id
  | op c next ih => exact ⟨trivial, ih⟩

@[simp] theorem within_pure (a : α) : Within A bad (Pure.pure a : Prog C R E α) := trivial

@[simp] theorem within_throw {e : E} (he : ¬ bad e) : Within A bad (throw e : Prog C R E α) := he

theorem within_call {c : C} (hc : A c) : Within A bad (call c : Prog C R E (R c)) :=
  ⟨hc, fun _ => trivial⟩

@[simp] theorem within_bind {f : α → Prog C R E β} :
    Within A bad (p >>= f) ↔ Within A bad p ∧ ∀ a, p.Returns a → Within A bad (f a) := by
  show Within A bad (p.bind f) ↔ _
  induction p with
  | ret a => simp [Prog.bind, Within, Returns]
  | throw e => simp [Prog.bind, Within, Returns]
  | op c next ih =>
    simp only [Prog.bind, Within, Returns, ih]
    grind

@[simp] theorem within_map {f : α → β} : Within A bad (f <$> p) ↔ Within A bad p := by
  rw [map_eq_pure_bind, within_bind]
  simp only [within_pure, implies_true, and_true]

@[simp] theorem within_ite {c : Prop} [Decidable c] {q : Prog C R E α} :
    Within A bad (if c then p else q) = if c then Within A bad p else Within A bad q :=
  apply_ite ..

@[simp] theorem within_foldlM {f : β → α → Prog C R E β} (hf : ∀ b a, Within A bad (f b a))
    (l : List α) (b : β) : Within A bad (l.foldlM f b) := by
  induction l generalizing b <;> simp [*]

@[simp] theorem within_forM {f : α → Prog C R E PUnit} (hf : ∀ a, Within A bad (f a))
    (l : List α) : Within A bad (forM l f) := by
  induction l <;> simp [*]

theorem Within.keeps {I : S → Prop} (hI : ∀ c s r s', A c → I s → h c s = .ok (r, s') → I s')
    (hp : Within A bad p) {s s' : S} {a : α} (hs : I s) (hrun : run h p s = .ok (a, s')) :
    I s' := by
  induction p generalizing s with
  | ret b =>
    cases hrun
    exact hs
  | throw e => cases hrun
  | op c next ih =>
    unfold run at hrun
    cases hc : h c s with
    | error e =>
      rw [hc] at hrun
      cases hrun
    | ok r =>
      rw [hc] at hrun
      exact ih r.1 (hp.2 r.1) (hI c s r.1 r.2 hp.1 hs hc) hrun

/-- Commands that never fail add no error to those of the program. -/
theorem Within.avoids (hA : ∀ c s, A c → ∃ r, h c s = .ok r) (hp : Within A bad p) (s : S) :
    Avoids h bad s p := by
  induction p generalizing s with
  | ret b => exact nofun
  | throw e =>
    intro e' he
    cases he
    exact hp
  | op c next ih =>
    intro e he
    obtain ⟨r, hc⟩ := hA c s hp.1
    unfold run at he
    rw [hc] at he
    exact ih r.1 (hp.2 r.1) r.2 e he

end

end Prog

/-! ## Simulation -/

/-- `h` simulates `g` through `Rel`: where `g` answers, `h` gives the same answer in a related
state, and where `g` stops with an error that is not `bad`, so does `h`. -/
def Simulates {C : Type} {R : C → Type} {E S T : Type} (Rel : S → T → Prop) (bad : E → Prop)
    (h : Handler C R E S) (g : Handler C R E T) : Prop :=
  ∀ c s t, Rel s t →
    (∀ e, g c t = .error e → ¬ bad e → h c s = .error e) ∧
    ∀ r t', g c t = .ok (r, t') → ∃ s', h c s = .ok (r, s') ∧ Rel s' t'

namespace Simulates

variable {C : Type} {R : C → Type} {E S T α : Type} {Rel : S → T → Prop} {bad : E → Prop}
  {h : Handler C R E S} {g : Handler C R E T}

/-- One result, or one command, of a simulation. -/
abbrev Follows (Rel : S → T → Prop) (bad : E → Prop) (x : Except E (α × S))
    (y : Except E (α × T)) : Prop :=
  (∀ e, y = .error e → ¬ bad e → x = .error e) ∧
  ∀ a t', y = .ok (a, t') → ∃ s', x = .ok (a, s') ∧ Rel s' t'

theorem follows_ok {x : Except E (α × S)} {a : α} {s : S} {t : T} (hx : x = .ok (a, s))
    (hrel : Rel s t) : Follows Rel bad x (.ok (a, t)) := by
  refine ⟨nofun, ?_⟩
  rintro b t' hb
  cases hb
  exact ⟨s, hx, hrel⟩

theorem follows_answer {r : α × S} {a : α} {t : T} (ha : r.1 = a) (hrel : Rel r.2 t) :
    Follows Rel bad (.ok r : Except E (α × S)) (.ok (a, t)) :=
  follows_ok (congrArg Except.ok (Prod.ext ha rfl)) hrel

theorem follows_error {x : Except E (α × S)} {e : E} (hx : ¬ bad e → x = .error e) :
    Follows Rel bad x (.error e : Except E (α × T)) := by
  refine ⟨?_, nofun⟩
  rintro e' he hgood
  cases he
  exact hx hgood

/-- **A simulation of commands is a simulation of programs.** -/
theorem run (hsim : Simulates Rel bad h g) (p : Prog C R E α) {s : S} {t : T} (hrel : Rel s t) :
    (∀ e, p.run g t = .error e → ¬ bad e → p.run h s = .error e) ∧
    ∀ a t', p.run g t = .ok (a, t') → ∃ s', p.run h s = .ok (a, s') ∧ Rel s' t' := by
  induction p generalizing s t with
  | ret a => exact follows_ok rfl hrel
  | throw e => exact follows_error fun _ => rfl
  | op c next ih =>
    obtain ⟨herror, hok⟩ := hsim c s t hrel
    unfold Prog.run
    cases hg : g c t with
    | error e => exact follows_error fun hgood => by rw [herror e hg hgood]
    | ok r =>
      obtain ⟨s', hs', hrel'⟩ := hok r.1 r.2 hg
      rw [hs']
      exact ih r.1 hrel'

/-- The simulating run, read backwards: what it answers, the simulated one answers too, unless
that one ends with a bad error. -/
theorem run_ok_of_not_bad (hsim : Simulates Rel bad h g) (p : Prog C R E α) {s s' : S} {t : T}
    {a : α} (hrel : Rel s t) (hrun : p.run h s = .ok (a, s')) (hgood : p.Avoids g bad t) :
    ∃ t', p.run g t = .ok (a, t') ∧ Rel s' t' := by
  obtain ⟨herror, hok⟩ := hsim.run p hrel
  cases hg : p.run g t with
  | error e =>
    have := herror e hg (hgood e hg)
    rw [hrun] at this
    cases this
  | ok r =>
    obtain ⟨s'', hs'', hrel'⟩ := hok r.1 r.2 hg
    rw [hrun] at hs''
    cases hs''
    exact ⟨r.2, rfl, hrel'⟩

end Simulates

end Passion.Lib
