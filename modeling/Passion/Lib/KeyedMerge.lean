import Mathlib.Data.List.AList

/-!
# Merging one finite map into another, entry by entry

A write-back layer hands its entries to the layer below it, one key at a time. Whatever is done
with one entry depends on what the lower layer holds at that key only, so the order in which the
entries are visited does not matter: **`lookup_mergeM`** reads the result off the two maps, key
by key, and **`mergeM_isOk`** says when no entry makes the merge fail.
-/

namespace Passion.Lib

open List

variable {κ β γ ε : Type} [DecidableEq κ]

/-- A finite map with keys `κ` and values `β`; its list of entries is in an arbitrary order. -/
abbrev Map (κ β : Type) := AList (fun _ : κ => β)

namespace Map

/-- Store `v` at `k`, or drop the entry at `k`. -/
def put (m : Map κ β) (k : κ) : Option β → Map κ β
  | none => m.erase k
  | some v => m.insert k v

section

variable (m : Map κ β) (k k' : κ)

@[simp] theorem lookup_put_self (v : Option β) : (m.put k v).lookup k = v := by
  cases v with
  | none => exact AList.lookup_erase k m
  | some v => exact AList.lookup_insert m

variable {k k'} in
theorem lookup_put_ne (v : Option β) (h : k' ≠ k) : (m.put k v).lookup k' = m.lookup k' := by
  cases v with
  | none => exact AList.lookup_erase_ne h
  | some v => exact AList.lookup_insert_ne h

theorem lookup_put (v : Option β) : (m.put k v).lookup k' = if k' = k then v else m.lookup k' := by
  split_ifs with h
  · rw [h, lookup_put_self]
  · exact lookup_put_ne m v h

theorem lookup_insert' (v : β) :
    (AList.insert k v m).lookup k' = if k' = k then some v else m.lookup k' :=
  lookup_put m k k' (some v)

theorem lookup_erase' : (m.erase k).lookup k' = if k' = k then none else m.lookup k' :=
  lookup_put m k k' none

/-! ## Counting entries -/

theorem countP_erase {m : Map κ β} {k : κ} {v : β} (hv : m.lookup k = some v) (p : β → Bool) :
    (m.erase k).entries.countP (fun e => p e.2) + (if p v then 1 else 0) =
      m.entries.countP fun e => p e.2 := by
  have hmem : ⟨k, v⟩ ∈ m.entries := AList.mem_lookup_iff.mp hv
  obtain ⟨v', l1, l2, -, hl, herase⟩ := exists_of_kerase (mem_keys_of_mem hmem)
  obtain rfl : v = v' := m.nodupKeys.eq_of_mk_mem hmem (by simp [hl])
  rw [show (m.erase k).entries = l1 ++ l2 from herase, hl, countP_append, countP_append,
    countP_cons, Nat.add_assoc]

/-! ## Inserting and changing entries -/

/-- Insert as `std::map::insert` does: an entry that is there stays. -/
def insertNew (m : Map κ β) (k : κ) (v : β) : Map κ β := m.put k (some ((m.lookup k).getD v))

def modify (m : Map κ β) (k : κ) (f : β → β) : Map κ β := m.put k ((m.lookup k).map f)

theorem lookup_insertNew (v : β) :
    (m.insertNew k v).lookup k' = if k' = k then some ((m.lookup k).getD v) else m.lookup k' :=
  lookup_put m k k' _

theorem lookup_modify (f : β → β) :
    (m.modify k f).lookup k' = if k' = k then (m.lookup k).map f else m.lookup k' :=
  lookup_put m k k' _

theorem isSome_lookup_modify (f : β → β) :
    ((m.modify k f).lookup k').isSome = (m.lookup k').isSome := by
  rw [lookup_modify]
  split_ifs with h
  · rw [h, Option.isSome_map]
  · rfl

end

variable {out m dst : Map κ β}

theorem mem_keys {k : κ} : k ∈ m.keys ↔ (m.lookup k).isSome = true :=
  AList.lookup_isSome.symm

theorem lookup_foldl_modify (f : β → β) {l : List κ} (hl : l.Nodup) (m : Map κ β) (k : κ) :
    (l.foldl (fun m k => m.modify k f) m).lookup k =
      if k ∈ l then (m.lookup k).map f else m.lookup k := by
  induction l generalizing m with
  | nil => rfl
  | cons k0 l ih =>
    obtain ⟨hk0, hl⟩ := nodup_cons.mp hl
    rw [foldl_cons, ih hl, lookup_modify]
    by_cases hk : k = k0
    · subst hk
      simp [hk0]
    · simp [hk]

theorem lookup_foldl_erase (l : List κ) (m : Map κ β) (k : κ) :
    (l.foldl (fun m k => m.erase k) m).lookup k = if k ∈ l then none else m.lookup k := by
  induction l generalizing m with
  | nil => rfl
  | cons k0 l ih =>
    rw [foldl_cons, ih, lookup_erase']
    by_cases hk : k = k0
    · simp [hk]
    · simp [hk]

theorem lookup_foldl_insertNew (v : β) (l : List κ) (m : Map κ β) (k : κ) :
    (l.foldl (fun m k => m.insertNew k v) m).lookup k =
      (m.lookup k).or (if k ∈ l then some v else none) := by
  induction l generalizing m with
  | nil => simp
  | cons k0 l ih =>
    rw [foldl_cons, ih, lookup_insertNew]
    by_cases hk : k = k0
    · subst hk
      cases m.lookup k <;> simp
    · simp [hk]

theorem lookup_foldl_insert (v : β) (l : List κ) (m : Map κ β) (k : κ) :
    (l.foldl (fun m k => m.insert k v) m).lookup k = if k ∈ l then some v else m.lookup k := by
  induction l generalizing m with
  | nil => simp
  | cons k0 l ih =>
    rw [foldl_cons, ih, lookup_insert']
    by_cases hk : k = k0 <;> simp [hk]

/-! ## Changing every entry -/

def mapVal (f : κ → β → γ) (m : Map κ β) : Map κ γ where
  entries := m.entries.map fun e => ⟨e.1, f e.1 e.2⟩
  nodupKeys := by
    rw [NodupKeys, keys, map_map]
    exact m.nodupKeys

omit [DecidableEq κ] in
theorem keys_mapVal (f : κ → β → γ) (m : Map κ β) : (m.mapVal f).keys = m.keys := by
  simp [mapVal, AList.keys, keys]

theorem lookup_mapVal (f : κ → β → γ) (m : Map κ β) (k : κ) :
    (m.mapVal f).lookup k = (m.lookup k).map (f k) := by
  ext v
  rw [← Option.mem_def, AList.mem_lookup_iff, Option.map_eq_some_iff]
  constructor
  · intro h
    obtain ⟨e, he, heq⟩ := mem_map.1 h
    obtain ⟨rfl, hv⟩ := Sigma.mk.inj_iff.1 heq
    exact ⟨e.2, AList.mem_lookup_iff.2 he, eq_of_heq hv⟩
  · rintro ⟨w, hw, rfl⟩
    exact mem_map.2 ⟨⟨k, w⟩, AList.mem_lookup_iff.1 hw, rfl⟩

/-! ## Keeping some of the entries -/

def keep (p : κ → β → Bool) (m : Map κ β) : Map κ β where
  entries := m.entries.filter fun e => p e.1 e.2
  nodupKeys := m.nodupKeys.sublist filter_sublist

theorem lookup_keep (p : κ → β → Bool) (m : Map κ β) (k : κ) :
    (m.keep p).lookup k = (m.lookup k).filter (p k) := by
  ext v
  have hmem : ∀ m : Map κ β, m.lookup k = some v ↔ ⟨k, v⟩ ∈ m.entries :=
    fun m => AList.mem_lookup_iff
  rw [Option.filter_eq_some_iff, hmem, hmem]
  exact mem_filter

theorem keep_eq_self {p : κ → β → Bool} (h : ∀ k v, m.lookup k = some v → p k v = true) :
    m.keep p = m := by
  apply AList.ext
  refine filter_eq_self.2 fun e he => h e.1 e.2 ?_
  exact AList.mem_lookup_iff.2 he

/-! ## Folds that touch one key at a time -/

/-- A fold over entries with distinct keys, whose steps change what is read at their own key
only, leaves at every key what its one step made of the old value. -/
theorem read_foldl_of_mem {S R : Type} (read : S → κ → R) (f : κ → R → γ → R)
    (step : S → (Sigma fun _ : κ => γ) → S) (l : List (Sigma fun _ : κ => γ)) (hl : l.NodupKeys)
    (hstep : ∀ s, ∀ kv ∈ l, ∀ k,
      read (step s kv) k = if k = kv.1 then f k (read s k) kv.2 else read s k) (s : S) (k : κ) :
    read (l.foldl step s) k = (l.dlookup k).elim (read s k) (f k (read s k)) := by
  induction l generalizing s with
  | nil => rfl
  | cons kv l ih =>
    obtain ⟨k0, v0⟩ := kv
    rw [nodupKeys_cons] at hl
    obtain ⟨hhead, htail⟩ : (∀ s k, read (step s ⟨k0, v0⟩) k =
        if k = k0 then f k (read s k) v0 else read s k) ∧ _ :=
      ⟨fun s => hstep s _ mem_cons_self,
        fun s kv hkv => hstep s kv (mem_cons_of_mem _ hkv)⟩
    rw [foldl_cons, ih hl.2 htail]
    by_cases hk : k = k0
    · subst hk
      rw [dlookup_eq_none.2 hl.1]
      simp [hhead]
    · rw [dlookup_cons_ne _ _ hk]
      simp [hhead, hk]

theorem read_foldl {S R : Type} (read : S → κ → R) (f : κ → R → γ → R)
    (step : S → (Sigma fun _ : κ => γ) → S)
    (hstep : ∀ s kv k, read (step s kv) k = if k = kv.1 then f k (read s k) kv.2 else read s k)
    (l : List (Sigma fun _ : κ => γ)) (hl : l.NodupKeys) (s : S) (k : κ) :
    read (l.foldl step s) k = (l.dlookup k).elim (read s k) (f k (read s k)) :=
  read_foldl_of_mem read f step l hl (fun s kv _ => hstep s kv) s k

/-! ## The merge -/

/-- One entry of the upper map: replace what the lower one holds at its key by what `f` says. -/
def mergeEntry (f : Option β → γ → Except ε (Option β)) (m : Map κ β) (kv : Sigma fun _ : κ => γ) :
    Except ε (Map κ β) :=
  (f (m.lookup kv.1) kv.2).map (m.put kv.1)

/-- Merge the entries of `src` into `dst`, in the order of `src`. -/
def mergeM (f : Option β → γ → Except ε (Option β)) (src : Map κ γ) (dst : Map κ β) :
    Except ε (Map κ β) :=
  src.entries.foldlM (mergeEntry f) dst

variable {f : Option β → γ → Except ε (Option β)}

theorem mergeEntry_eq_ok {kv : Sigma fun _ : κ => γ} (h : mergeEntry f m kv = .ok out) :
    f (m.lookup kv.1) kv.2 = .ok (out.lookup kv.1) ∧
      ∀ k, k ≠ kv.1 → out.lookup k = m.lookup k := by
  unfold mergeEntry at h
  cases hf : f (m.lookup kv.1) kv.2 with
  | error e => simp [hf, Except.map] at h
  | ok v =>
    obtain rfl : m.put kv.1 v = out := by simpa [hf, Except.map] using h
    exact ⟨by rw [lookup_put_self], fun k hk => lookup_put_ne m v hk⟩

private theorem foldlM_mergeEntry (l : List (Sigma fun _ : κ => γ)) (hl : l.NodupKeys)
    (h : l.foldlM (mergeEntry f) dst = .ok out) (k : κ) :
    match l.dlookup k with
    | none => out.lookup k = dst.lookup k
    | some v => f (dst.lookup k) v = .ok (out.lookup k) := by
  induction l generalizing dst with
  | nil =>
    obtain rfl : dst = out := by simpa [pure, Except.pure] using h
    simp
  | cons kv l ih =>
    obtain ⟨k0, v0⟩ := kv
    rw [nodupKeys_cons] at hl
    cases hm : mergeEntry f dst ⟨k0, v0⟩ with
    | error e => simp [hm, bind, Except.bind] at h
    | ok mid =>
      have hrest : l.foldlM (mergeEntry f) mid = .ok out := by
        simpa [hm, bind, Except.bind] using h
      have ih := ih hl.2 hrest
      obtain ⟨hself, hother⟩ := mergeEntry_eq_ok hm
      by_cases hk : k = k0
      · -- the key occurs once, so the rest of the entries leave it alone
        subst hk
        rw [dlookup_eq_none.2 hl.1] at ih
        simpa [ih] using hself
      · rw [dlookup_cons_ne _ _ hk]
        simpa [hother k hk] using ih

/-- **Reading a merge.** Keys of `src` hold what `f` made of the two entries, and every other
key is as it was. -/
theorem lookup_mergeM {src : Map κ γ} (h : mergeM f src dst = .ok out) (k : κ) :
    match src.lookup k with
    | none => out.lookup k = dst.lookup k
    | some v => f (dst.lookup k) v = .ok (out.lookup k) :=
  foldlM_mergeEntry src.entries src.nodupKeys h k

private theorem foldlM_isOk (l : List (Sigma fun _ : κ => γ)) (hl : l.NodupKeys) (dst : Map κ β)
    (hf : ∀ k v, l.dlookup k = some v → ∃ r, f (dst.lookup k) v = .ok r) :
    ∃ out, l.foldlM (mergeEntry f) dst = .ok out := by
  induction l generalizing dst with
  | nil => exact ⟨dst, rfl⟩
  | cons kv l ih =>
    obtain ⟨k0, v0⟩ := kv
    rw [nodupKeys_cons] at hl
    obtain ⟨r, hr⟩ := hf k0 v0 (dlookup_cons_eq _ _ _)
    have hm : mergeEntry f dst ⟨k0, v0⟩ = .ok (dst.put k0 r) := by
      simp [mergeEntry, hr, Except.map]
    obtain ⟨out, hout⟩ := ih hl.2 (dst.put k0 r) fun k v hkv => by
      have hk : k ≠ k0 := by
        rintro rfl
        rw [dlookup_eq_none.2 hl.1] at hkv
        cases hkv
      rw [lookup_put_ne _ _ hk]
      exact hf k v (by rw [dlookup_cons_ne _ _ hk]; exact hkv)
    exact ⟨out, by simpa [hm, bind, Except.bind] using hout⟩

/-- **A merge fails at an entry or not at all**: if `f` accepts every entry of `src` against
what `dst` holds at its key, the whole merge goes through. -/
theorem mergeM_isOk {src : Map κ γ}
    (hf : ∀ k v, src.lookup k = some v → ∃ r, f (dst.lookup k) v = .ok r) :
    ∃ out, mergeM f src dst = .ok out :=
  foldlM_isOk src.entries src.nodupKeys dst hf

end Map

end Passion.Lib
