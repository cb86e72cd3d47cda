import Mathlib.Data.List.Basic

/-!
# Wiping the zerocoin database

`WipeCoins` and `WipeAccChecksums` of `CZerocoinDB` in `txdb.cpp`, over the bytes of a key-value
store. Both let a cursor collect items and then erase a key for each item. What they collect is
the *value* of a record, not the rest of its key: a transaction hash in the place of a coin hash,
and a height in the place of a checksum with its denomination.

**`wipe_removes_iff`**: `WipeCoins` leaves the other records alone, and it removes those of its type
exactly if the key of each is the value of another one. `WipeAccChecksums` erases keys of five
bytes where the records have nine, so it removes nothing.
-/

namespace Passion

open List

def bytewiseLt : List UInt8 → List UInt8 → Bool
  | _, [] => false
  | [], _ :: _ => true
  | a :: k, b :: k' => decide (a.toNat < b.toNat) || (a == b && bytewiseLt k k')

/-- Serialized keys with their values, in the order of the keys. -/
abbrev DbStore := List (List UInt8 × List UInt8)

namespace DbStore

variable (store : DbStore) (type : UInt8) (width : Nat)

/-- `Seek(key)`: what the cursor visits from there on. -/
def seek (key : List UInt8) : DbStore := store.filter (!bytewiseLt ·.1 key)

def erase (key : List UInt8) : DbStore := store.filter (·.1 ≠ key)

/-- The loop of a wipe. `GetKey` reads `type` and `width` bytes, `GetValue` reads `width` bytes, and
both leave alone what comes after; a value that is too short ends the wipe. -/
def collect : DbStore → Option (List (List UInt8))
  | [] => some []
  | (key, value) :: rest =>
    if key.head? = some type ∧ width < key.length then
      if width ≤ value.length then (collect rest).map (value.take width :: ·) else none
    else some []

/-- The store after a wipe; `none` where it returns `false`. -/
def wipe : Option DbStore :=
  (collect type width (store.seek (type :: replicate width 0))).map fun setDelete =>
    setDelete.foldl (fun store hash => store.erase (type :: hash)) store

def wipeCoins (strType : String) : Option DbStore :=
  if strType ≠ "spends" ∧ strType ≠ "mints" then none
  else store.wipe (if strType = "spends" then 0x73 else 0x6d) 32

def wipeAccChecksums : Option DbStore := store.wipe 0x41 4

end DbStore

/-- What `WriteCoinMintBatch`, `WriteCoinSpendBatch`, `WriteAccChecksum` and `WriteZCSupply`
write. -/
inductive ZerocoinRecord : List UInt8 × List UInt8 → Prop where
  | mint (hash txid : List UInt8) (hhash : hash.length = 32) (htxid : txid.length = 32) :
    ZerocoinRecord (0x6d :: hash, txid)
  | spend (hash txid : List UInt8) (hhash : hash.length = 32) (htxid : txid.length = 32) :
    ZerocoinRecord (0x73 :: hash, txid)
  | accChecksum (nChecksum denom nHeight : List UInt8) (hchecksum : nChecksum.length = 4)
    (hdenom : denom.length = 4) (hheight : nHeight.length = 4) :
    ZerocoinRecord (0x41 :: (nChecksum ++ denom), nHeight)
  | supply (mapZCS : List UInt8) : ZerocoinRecord ([0x4d], mapZCS)

structure CZerocoinDB where
  store : DbStore
  sorted : store.Pairwise (bytewiseLt ·.1 ·.1)
  records : ∀ kv ∈ store, ZerocoinRecord kv

namespace DbStore

variable {store : DbStore} {type : UInt8} {width : Nat}

theorem mem_foldl_erase {setDelete : List (List UInt8)} {kv : List UInt8 × List UInt8} :
    kv ∈ setDelete.foldl (fun store hash => store.erase (type :: hash)) store ↔
      kv ∈ store ∧ ∀ hash ∈ setDelete, kv.1 ≠ type :: hash := by
  induction setDelete generalizing store with
  | nil => simp
  | cons hash setDelete ih =>
    rw [foldl_cons, ih]
    simp [erase, and_assoc]

theorem bytewiseLt_zeros {k : List UInt8} (h : width ≤ k.length) :
    bytewiseLt k (replicate width 0) = false := by
  induction width generalizing k with
  | zero => simp [bytewiseLt]
  | succ width ih =>
    cases k with
    | nil => cases h
    | cons b k => simp [replicate_succ, bytewiseLt, ih (Nat.le_of_succ_le_succ h)]

/-- The cursor finds the records of the type: what is in front of them is passed over, and behind
them the loop ends. -/
theorem collect_seek (hsorted : store.Pairwise (bytewiseLt ·.1 ·.1))
    (hread : ∀ kv ∈ store, kv.1.head? = some type → width < kv.1.length ∧ width ≤ kv.2.length) :
    collect type width (store.seek (type :: replicate width 0)) =
      some ((store.filter (·.1.head? = some type)).map (·.2.take width)) := by
  induction store with
  | nil => rfl
  | cons kv l ih =>
    obtain ⟨hfirst, hl⟩ := pairwise_cons.mp hsorted
    have hrest := ih hl fun kv' hmem => hread kv' (mem_cons_of_mem kv hmem)
    obtain ⟨_ | ⟨a, k⟩, value⟩ := kv
    · simpa [seek, bytewiseLt] using hrest
    rcases Nat.lt_trichotomy a.toNat type.toNat with hlt | heq | hgt
    · have hne : a ≠ type := fun h => by simp [h] at hlt
      simpa [seek, bytewiseLt, hlt, hne] using hrest
    · obtain rfl := UInt8.toNat_inj.mp heq
      obtain ⟨hkey, hvalue⟩ := hread _ mem_cons_self rfl
      have hvisit := bytewiseLt_zeros (Nat.le_of_lt_succ hkey)
      simp_all [seek, bytewiseLt, collect]
    · have hnone : ∀ kv' ∈ l, kv'.1.head? ≠ some type := by
        rintro ⟨_ | ⟨b, k'⟩, value'⟩ hmem
        · simp
        have hlt := hfirst _ hmem
        simp only [bytewiseLt] at hlt
        grind
      have hne : a ≠ type := fun h => by simp [h] at hgt
      have hstop : ¬ a.toNat < type.toNat := by omega
      simpa [seek, bytewiseLt, collect, hne, hstop] using hnone

/-- What a wipe leaves: all records but those under a key made of the value of one of the type. -/
theorem exists_wipe (type : UInt8) (width : Nat) (hsorted : store.Pairwise (bytewiseLt ·.1 ·.1))
    (hread : ∀ kv ∈ store, kv.1.head? = some type → width < kv.1.length ∧ width ≤ kv.2.length) :
    ∃ store', store.wipe type width = some store' ∧ ∀ kv, kv ∈ store' ↔
      kv ∈ store ∧
        ∀ hash value, (type :: hash, value) ∈ store → kv.1 ≠ type :: value.take width := by
  refine ⟨_, by rw [wipe, collect_seek hsorted hread, Option.map_some], fun kv => ?_⟩
  rw [mem_foldl_erase]
  refine and_congr_right fun _ => ⟨fun h hash value hmem => ?_, fun h x hx => ?_⟩
  · exact h _ (mem_map.mpr ⟨_, mem_filter.mpr ⟨hmem, by simp⟩, rfl⟩)
  · obtain ⟨⟨_ | ⟨t, hash⟩, value⟩, hkv, rfl⟩ := mem_map.mp hx
    · simp at hkv
    · obtain ⟨hmem, htype⟩ := mem_filter.mp hkv
      obtain rfl : t = type := by simpa using htype
      exact h hash value hmem

end DbStore

open DbStore in
/-- **What the wipes remove.** -/
theorem wipe_removes_iff (db : CZerocoinDB) :
    (∀ strType type, strType = "spends" ∧ type = 0x73 ∨ strType = "mints" ∧ type = 0x6d →
      ∃ store', db.store.wipeCoins strType = some store' ∧
        (∀ kv, kv.1.head? ≠ some type → (kv ∈ store' ↔ kv ∈ db.store)) ∧
        ((∀ kv ∈ store', kv.1.head? ≠ some type) ↔ ∀ hash value,
          (type :: hash, value) ∈ db.store → ∃ hash', (type :: hash', hash) ∈ db.store)) ∧
    ∃ store', db.store.wipeAccChecksums = some store' ∧
      ((∀ kv ∈ store', kv.1.head? ≠ some 0x41) ↔ ∀ kv ∈ db.store, kv.1.head? ≠ some 0x41) := by
  constructor
  · intro strType type hp
    have hlen : ∀ kv ∈ db.store, kv.1.head? = some type → kv.1.length = 33 ∧ kv.2.length = 32 := by
      intro kv hkv hhead
      cases db.records kv hkv <;> grind
    have htake : ∀ hash value, (type :: hash, value) ∈ db.store → value.take 32 = value :=
      fun hash value hkv => take_of_length_le (Nat.le_of_eq (hlen _ hkv rfl).2)
    obtain ⟨store', hwipe, hmem⟩ :=
      exists_wipe type 32 db.sorted fun kv hkv hhead => by simp [hlen kv hkv hhead]
    refine ⟨store', ?_, fun kv hhead => ?_, fun h hash value hkv => ?_, fun h kv hkv hhead => ?_⟩
    · rcases hp with ⟨rfl, rfl⟩ | ⟨rfl, rfl⟩ <;> exact hwipe
    · refine (hmem kv).trans (and_iff_left fun hash value _ heq => hhead ?_)
      rw [heq]
      rfl
    · by_contra hno
      refine h _ ((hmem _).mpr ⟨hkv, fun hash' value' hkv' heq => hno ⟨hash', ?_⟩⟩) rfl
      rw [htake hash' value' hkv'] at heq
      rwa [(cons.inj heq).2]
    · obtain ⟨hkv, hkept⟩ := (hmem kv).mp hkv
      obtain ⟨_ | ⟨t, hash⟩, value⟩ := kv
      · cases hhead
      cases hhead
      obtain ⟨hash', hkv'⟩ := h hash value hkv
      exact hkept hash' hash hkv' (by rw [htake hash' hash hkv'])
  · have hlen : ∀ kv ∈ db.store, kv.1.head? = some 0x41 → kv.1.length = 9 ∧ kv.2.length = 4 := by
      intro kv hkv hhead
      cases db.records kv hkv <;> simp_all
    obtain ⟨store', hwipe, hmem⟩ :=
      exists_wipe 0x41 4 db.sorted fun kv hkv hhead => by simp [hlen kv hkv hhead]
    refine ⟨store', hwipe, fun h kv hkv hhead => h kv ((hmem kv).mpr ⟨hkv, ?_⟩) hhead,
      fun h kv hkv => h kv ((hmem kv).mp hkv).1⟩
    -- An erased key has five bytes.
    intro hash value _ heq
    have hkey := (hlen kv hkv hhead).1
    rw [heq, length_cons, length_take] at hkey
    omega

/-- One mint: the wipe of the mints returns `true` and leaves it there. -/
theorem wipeCoins_leaves_mint : ∃ db : CZerocoinDB,
    db.store.wipeCoins "mints" = some db.store ∧ ∃ kv ∈ db.store, kv.1.head? = some 0x6d :=
  ⟨⟨[(0x6d :: replicate 32 1, replicate 32 2)], by simp, by
    simpa using ZerocoinRecord.mint _ _ (by simp) (by simp)⟩, by decide, by simp⟩

end Passion
