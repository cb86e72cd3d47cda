import Passion.Lib.KeyedMerge

/-!
# Write-back layers

A write-back layer is a finite map of entries over a total view of what lies below it. An entry
shows a value (or shows that there is none), and carries two marks: *dirty*, it may differ from
the view below; *fresh*, the view below shows nothing at this key, so a dead entry need not be
handed down.

`seen` and `Faithful` say, at one key, what a layer shows and that its marks tell the truth;
`overlay` and `Sound` say the same of the whole layer. Everything a layer does touches one key at
a time, so a layer operation is sound as soon as the new entry is (`sound_put`), and flushing a
whole layer into the one below is sound as soon as every entry is merged soundly
(**`sound_mergeM`**).
-/

namespace Passion.Lib.WriteBack

open Passion.Lib

/-- Entries `ε` of a write-back layer that show values `ω`. -/
class CacheEntry (ε : Type) (ω : outParam Type) where
  shown : ε → Option ω
  dirty : ε → Bool
  fresh : ε → Bool

variable {κ ε ω δ : Type} [DecidableEq κ] [CacheEntry ε ω]

open CacheEntry

/-! ## One key -/

/-- What is seen through the slot `p` of a layer when `b` is seen below it. -/
def seen (p : Option ε) (b : Option ω) : Option ω :=
  match p with
  | none => b
  | some e => shown e

/-- The marks of the slot `p` tell the truth about what is seen below it. -/
def Faithful (p : Option ε) (b : Option ω) : Prop :=
  ∀ e ∈ p, (fresh e = true → b = none) ∧ (dirty e = false → shown e = b)

@[simp] theorem seen_none (b : Option ω) : seen (none : Option ε) b = b := rfl

@[simp] theorem seen_some (e : ε) (b : Option ω) : seen (some e) b = shown e := rfl

@[simp] theorem faithful_none (b : Option ω) : Faithful (none : Option ε) b := by
  intro e he
  cases he

theorem faithful_some {e : ε} {b : Option ω} :
    Faithful (some e) b ↔ (fresh e = true → b = none) ∧ (dirty e = false → shown e = b) := by
  simp [Faithful]

/-! ## A whole layer -/

/-- What is seen through the layer `m` over the view `below`. -/
def overlay (m : Map κ ε) (below : κ → Option ω) : κ → Option ω :=
  fun k => seen (m.lookup k) (below k)

/-- Every mark of the layer `m` tells the truth about the view `below`. -/
def Sound (m : Map κ ε) (below : κ → Option ω) : Prop :=
  ∀ k, Faithful (m.lookup k) (below k)

variable {m dst : Map κ ε} {below : κ → Option ω} {k : κ}

@[simp] theorem overlay_empty (below : κ → Option ω) : overlay (∅ : Map κ ε) below = below := rfl

theorem sound_empty (below : κ → Option ω) : Sound (∅ : Map κ ε) below :=
  fun _ => faithful_none _

theorem overlay_put (m : Map κ ε) (below : κ → Option ω) (k : κ) (p : Option ε) :
    overlay (m.put k p) below = Function.update (overlay m below) k (seen p (below k)) := by
  funext k'
  by_cases h : k' = k
  · subst h
    simp [overlay]
  · simp [overlay, Map.lookup_put_ne m p h, h]

theorem sound_put {p : Option ε} (hm : Sound m below) (hp : Faithful p (below k)) :
    Sound (m.put k p) below := by
  intro k'
  by_cases h : k' = k
  · subst h
    simpa using hp
  · rw [Map.lookup_put_ne m p h]
    exact hm k'

theorem overlay_put_of_seen {p : Option ε} (h : seen p (below k) = overlay m below k) :
    overlay (m.put k p) below = overlay m below := by
  rw [overlay_put, h, Function.update_eq_self]

/-! ## Flushing a layer into the one below -/

/-- If every entry of the upper layer `src` can be merged into the lower layer `dst` so that the
merged slot is faithful and shows `target`, then the merge succeeds, `dst` stays sound, and shows
`target` at the keys of `src`. -/
theorem mergeM_spec {src : Map κ ε} {f : Option ε → ε → Except δ (Option ε)}
    (target : κ → ε → Option ω) (hdst : Sound dst below)
    (hf : ∀ k e, src.lookup k = some e →
      ∃ r, f (dst.lookup k) e = .ok r ∧ Faithful r (below k) ∧ seen r (below k) = target k e) :
    ∃ out, Map.mergeM f src dst = .ok out ∧ Sound out below ∧
      ∀ k, overlay out below k = (src.lookup k).elim (overlay dst below k) (target k) := by
  obtain ⟨out, hout⟩ : ∃ out, Map.mergeM f src dst = .ok out :=
    Map.mergeM_isOk fun k e he =>
      let ⟨r, hr, _⟩ := hf k e he
      ⟨r, hr⟩
  have key : ∀ k, Faithful (out.lookup k) (below k) ∧
      overlay out below k = (src.lookup k).elim (overlay dst below k) (target k) := by
    intro k
    have hk := Map.lookup_mergeM hout k
    cases he : src.lookup k with
    | none =>
      rw [he] at hk
      simp only [overlay, hk]
      exact ⟨hdst k, rfl⟩
    | some e =>
      rw [he] at hk
      obtain ⟨r, hr, hfaith, hseen⟩ := hf k e he
      cases hr.symm.trans hk
      exact ⟨hfaith, hseen⟩
  exact ⟨out, hout, fun k => (key k).1, fun k => (key k).2⟩

/-- **Flushing is invisible.** If every entry of `src` is merged so that it still shows what it
showed, `dst` now shows what `src` over `dst` showed before. -/
theorem sound_mergeM {src : Map κ ε} {f : Option ε → ε → Except δ (Option ε)}
    (hdst : Sound dst below)
    (hf : ∀ k e, src.lookup k = some e →
      ∃ r, f (dst.lookup k) e = .ok r ∧ Faithful r (below k) ∧ seen r (below k) = shown e) :
    ∃ out, Map.mergeM f src dst = .ok out ∧ Sound out below ∧
      overlay out below = overlay src (overlay dst below) := by
  obtain ⟨out, hout, hsound, hshown⟩ := mergeM_spec (fun _ => shown) hdst hf
  refine ⟨out, hout, hsound, funext fun k => ?_⟩
  rw [hshown k]
  unfold overlay
  cases src.lookup k <;> rfl

end Passion.Lib.WriteBack
