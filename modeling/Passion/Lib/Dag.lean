import Mathlib.Algebra.BigOperators.Group.Finset.Basic

/-!
# Ancestors and descendants in a finite graph

**Walks.** `walk` collects what can be reached from a stage of vertices with a worklist, as a set
kept in a list. It may use results of earlier walks: where a vertex has a cached set, that set is
taken over and the vertex is not entered. The cached sets need not be complete; what they leave out
is described by `keep`, and the walk is exact for the vertices that are kept (`mem_walk`).

**Removing vertices.** `above V E x` and `below V E x` are the vertices of `V` that `x` reaches, and
that reach `x`. Taking out a set that is closed in one direction takes it out of these sets and
changes nothing else, since no path between two vertices that stay leads through it
(`above_restrict`, `below_restrict`).

**Edges that come late.** `Detaches E E₀ R`: the edges into `R` from outside are missing in `E₀`. If
`R` contains everything above its elements, what is missing above a vertex outside are the vertices
of `R`, and below a vertex of `R` those outside (`above_detach`, `below_detach`).
-/

namespace Passion.Lib.Dag

open Relation List

variable {α : Type}

/-! ## Walks -/

section

variable [DecidableEq α]

/-- Look at the neighbours of a vertex: take over a cached set, or put a new vertex on the stage. -/
def visit (cache : α → Option (List α)) (s : List α × List α) (y : α) : List α × List α :=
  match cache y with
  | some known => (s.1, known ∪ s.2)
  | none => if y ∈ s.2 then s else (s.1.insert y, s.2)

/-- Move vertices from the stage to the result until the stage is empty. -/
def walk (next : α → List α) (cache : α → Option (List α)) : Nat → List α → List α → List α
  | 0, _, done => done
  | _ + 1, [], done => done
  | fuel + 1, x :: stage, done =>
    let (stage, done) := (next x).foldl (visit cache) (stage, done.insert x)
    walk next cache fuel stage done

variable {next : α → List α} {cache : α → Option (List α)}

/-- What looking at the neighbours `ys` does. -/
structure Visited (cache : α → Option (List α)) (ys : List α) (s s' : List α × List α) : Prop where
  stage_sub : ∀ y ∈ s.1, y ∈ s'.1
  done_sub : ∀ y ∈ s.2, y ∈ s'.2
  seen : ∀ y ∈ ys, cache y = none → y ∈ s'.2 ∨ y ∈ s'.1
  known : ∀ y ∈ ys, ∀ known, cache y = some known → ∀ z ∈ known, z ∈ s'.2
  stage_new : ∀ y ∈ s'.1, y ∈ s.1 ∨ y ∈ ys ∧ y ∉ s.2
  done_new : ∀ y ∈ s'.2, y ∈ s.2 ∨ ∃ z ∈ ys, ∃ known, cache z = some known ∧ y ∈ known
  stage_nodup : s.1.Nodup → s'.1.Nodup
  done_nodup : s.2.Nodup → s'.2.Nodup

omit [DecidableEq α] in
theorem visited_nil (s : List α × List α) : Visited cache [] s s where
  stage_sub _ := id
  done_sub _ := id
  seen _ hy := nomatch hy
  known _ hy := nomatch hy
  stage_new _ := .inl
  done_new _ := .inl
  stage_nodup := id
  done_nodup := id

theorem visited_one (y : α) (s : List α × List α) : Visited cache [y] s (visit cache s y) := by
  unfold visit
  cases hy : cache y with
  | some known =>
    refine ⟨fun _ => id, fun z hz => mem_union_iff.mpr (.inr hz), ?_, ?_, fun _ => .inl, ?_, id,
      fun h => h.union known⟩
    · intro z hz hnone
      rw [mem_singleton.mp hz, hy] at hnone
      cases hnone
    · intro z hz known' hknown w hw
      rw [mem_singleton.mp hz, hy] at hknown
      cases hknown
      exact mem_union_iff.mpr (.inl hw)
    · intro z hz
      rcases mem_union_iff.mp hz with hz | hz
      · exact .inr ⟨y, mem_singleton_self y, known, hy, hz⟩
      · exact .inl hz
  | none =>
    by_cases hdone : y ∈ s.2
    · simp only [hdone]
      refine ⟨fun _ => id, fun _ => id, ?_, ?_, fun _ => .inl, fun _ => .inl, id, id⟩
      · intro z hz _
        rw [mem_singleton.mp hz]
        exact .inl hdone
      · intro z hz known hknown
        rw [mem_singleton.mp hz, hy] at hknown
        cases hknown
    · simp only [hdone]
      refine ⟨fun z hz => mem_insert_of_mem hz, fun _ => id, ?_, ?_, ?_, fun _ => .inl,
        fun h => h.insert, id⟩
      · intro z hz _
        rw [mem_singleton.mp hz]
        exact .inr mem_insert_self
      · intro z hz known hknown
        rw [mem_singleton.mp hz, hy] at hknown
        cases hknown
      · intro z hz
        rcases mem_insert_iff.mp hz with rfl | hz
        · exact .inr ⟨mem_singleton_self z, hdone⟩
        · exact .inl hz

omit [DecidableEq α] in
theorem Visited.trans {ys zs : List α} {s s' s'' : List α × List α} (h : Visited cache ys s s')
    (h' : Visited cache zs s' s'') : Visited cache (ys ++ zs) s s'' := by
  refine ⟨fun y hy => h'.stage_sub y (h.stage_sub y hy),
    fun y hy => h'.done_sub y (h.done_sub y hy),
    ?_, ?_, ?_, ?_, fun hn => h'.stage_nodup (h.stage_nodup hn),
    fun hn => h'.done_nodup (h.done_nodup hn)⟩
  · intro y hy hnone
    rcases mem_append.mp hy with hy | hy
    · exact (h.seen y hy hnone).imp (h'.done_sub y) (h'.stage_sub y)
    · exact h'.seen y hy hnone
  · intro y hy known hknown z hz
    rcases mem_append.mp hy with hy | hy
    · exact h'.done_sub z (h.known y hy known hknown z hz)
    · exact h'.known y hy known hknown z hz
  · intro y hy
    rcases h'.stage_new y hy with hy | ⟨hy, hnew⟩
    · exact (h.stage_new y hy).imp_right fun hy => ⟨mem_append_left _ hy.1, hy.2⟩
    · exact .inr ⟨mem_append_right _ hy, fun hd => hnew (h.done_sub y hd)⟩
  · intro y hy
    rcases h'.done_new y hy with hy | ⟨z, hz, hknown⟩
    · exact (h.done_new y hy).imp_right fun ⟨z, hz, hk⟩ => ⟨z, mem_append_left _ hz, hk⟩
    · exact .inr ⟨z, mem_append_right _ hz, hknown⟩

theorem visited_foldl (ys : List α) (s : List α × List α) :
    Visited cache ys s (ys.foldl (visit cache) s) := by
  induction ys generalizing s with
  | nil => exact visited_nil s
  | cons y ys ih => exact (visited_one y s).trans (ih (visit cache s y))

/-- `y` is a neighbour of `x`, to follow. -/
def Edge (next : α → List α) (x y : α) : Prop := y ∈ next x

/-- Whatever is kept and can be reached from `x` is in the set. -/
def Settled (next : α → List α) (keep : α → Prop) (done : List α) (x : α) : Prop :=
  ∀ y, ReflTransGen (Edge next) x y → keep y → y ∈ done

omit [DecidableEq α] in
theorem Settled.mono {keep : α → Prop} {done done' : List α} {x : α} (h : Settled next keep done x)
    (hsub : ∀ y ∈ done, y ∈ done') : Settled next keep done' x :=
  fun y hy hk => hsub y (h y hy hk)

/-- Cached sets: reachable vertices, and among them all that are kept. -/
def CacheOk (next : α → List α) (cache : α → Option (List α)) (keep : α → Prop) : Prop :=
  ∀ z known, cache z = some known →
    (∀ y ∈ known, ReflTransGen (Edge next) z y) ∧ Settled next keep known z

/-- The invariant of a walk that starts with the stage `S`, the result `D` and vertices in `V`. -/
structure Walking (next : α → List α) (keep : α → Prop) (V : Finset α) (S D : List α)
    (stage done : List α) : Prop where
  stage_sound : ∀ y ∈ stage, ∃ x ∈ S, ReflTransGen (Edge next) x y
  done_sound : ∀ y ∈ done, y ∈ D ∨ ∃ x ∈ S, ReflTransGen (Edge next) x y
  start : ∀ x ∈ S, x ∈ done ∨ x ∈ stage
  old : ∀ x ∈ D, x ∈ done
  closed : ∀ x ∈ done, Settled next keep done x ∨
    ∀ z, Edge next x z → z ∈ done ∨ z ∈ stage ∨ Settled next keep done z
  stage_sub : ∀ y ∈ stage, y ∈ V
  stage_nodup : stage.Nodup
  done_nodup : done.Nodup

/-- The vertices that may still be taken from the stage. -/
def ahead (V : Finset α) (stage done : List α) : Finset α := {v ∈ V | v ∉ done ∨ v ∈ stage}

section
variable {keep : α → Prop} {V : Finset α} {S D stage done : List α} {x : α}

theorem Walking.step (h : Walking next keep V S D (x :: stage) done)
    (hcache : CacheOk next cache keep) (hV : ∀ v ∈ V, ∀ y ∈ next v, y ∈ V)
    {s : List α × List α} (hs : Visited cache (next x) (stage, done.insert x) s) :
    Walking next keep V S D s.1 s.2 ∧ ahead V s.1 s.2 ⊂ ahead V (x :: stage) done := by
  obtain ⟨hx, hstage⟩ := nodup_cons.mp h.stage_nodup
  have hxdone : x ∈ s.2 := hs.done_sub x mem_insert_self
  have hxV : x ∈ V := h.stage_sub x mem_cons_self
  have hdone : ∀ y ∈ done, y ∈ s.2 := fun y hy => hs.done_sub y (mem_insert_of_mem hy)
  obtain ⟨a, ha, hax⟩ := h.stage_sound x mem_cons_self
  refine ⟨⟨?_, ?_, ?_, fun y hy => hdone y (h.old y hy), ?_, ?_, hs.stage_nodup hstage,
    hs.done_nodup h.done_nodup.insert⟩, ?_⟩
  · intro y hy
    rcases hs.stage_new y hy with hy | ⟨hy, -⟩
    · exact h.stage_sound y (mem_cons_of_mem x hy)
    · exact ⟨a, ha, hax.tail hy⟩
  · intro y hy
    rcases hs.done_new y hy with hy | ⟨z, hz, known, hknown, hy⟩
    · rcases mem_insert_iff.mp hy with rfl | hy
      · exact .inr ⟨a, ha, hax⟩
      · exact h.done_sound y hy
    · exact .inr ⟨a, ha, (hax.tail hz).trans ((hcache z known hknown).1 y hy)⟩
  · intro y hy
    rcases h.start y hy with hy | hy
    · exact .inl (hdone y hy)
    · rcases mem_cons.mp hy with rfl | hy
      · exact .inl hxdone
      · exact .inr (hs.stage_sub y hy)
  · intro y hy
    rcases hs.done_new y hy with hy | ⟨z, hz, known, hknown, hy⟩
    · rcases mem_insert_iff.mp hy with rfl | hy
      · -- `y` is the vertex whose neighbours were looked at
        refine .inr fun z hz => ?_
        cases hc : cache z with
        | none => exact (hs.seen z hz hc).imp_right .inl
        | some known => exact .inr (.inr ((hcache z known hc).2.mono (hs.known z hz known hc)))
      · refine (h.closed y hy).imp (fun hsettled => hsettled.mono hdone) fun hnext z hz => ?_
        rcases hnext z hz with hz | hz | hz
        · exact .inl (hdone z hz)
        · rcases mem_cons.mp hz with rfl | hz
          · exact .inl hxdone
          · exact .inr (.inl (hs.stage_sub z hz))
        · exact .inr (.inr (hz.mono hdone))
    · -- `y` comes from a cached set, with everything that is kept above it
      obtain ⟨hreach, hsettled⟩ := hcache z known hknown
      refine .inl fun w hw hk => hs.known z hz known hknown w ?_
      exact hsettled w ((hreach y hy).trans hw) hk
  · intro y hy
    rcases hs.stage_new y hy with hy | ⟨hy, -⟩
    · exact h.stage_sub y (mem_cons_of_mem x hy)
    · exact hV x hxV y hy
  · have hxstage : x ∉ s.1 := by
      intro hmem
      rcases hs.stage_new x hmem with hmem | ⟨-, hnew⟩
      · exact hx hmem
      · exact hnew mem_insert_self
    refine ssubset_iff_subset_ne.mpr ⟨?_, ?_⟩
    · intro v hv
      simp only [ahead, Finset.mem_filter] at hv ⊢
      refine ⟨hv.1, ?_⟩
      rcases hv.2 with hv | hv
      · exact .inl fun hd => hv (hdone v hd)
      · rcases hs.stage_new v hv with hv | ⟨-, hnew⟩
        · exact .inr (mem_cons_of_mem x hv)
        · exact .inl fun hd => hnew (mem_insert_of_mem hd)
    · intro heq
      have hmem : x ∈ ahead V (x :: stage) done := by simp [ahead, hxV]
      rw [← heq] at hmem
      simp [ahead, hxdone, hxstage] at hmem

omit [DecidableEq α] in
theorem Walking.complete (h : Walking next keep V S D [] done) {y : α} (hk : keep y)
    (hy : ∃ x ∈ S, ReflTransGen (Edge next) x y) : y ∈ done := by
  obtain ⟨x, hx, hxy⟩ := hy
  have hxdone : x ∈ done := (h.start x hx).resolve_right (not_mem_nil)
  clear hx
  induction hxy using ReflTransGen.head_induction_on with
  | refl => exact hxdone
  | @head x z hxz hzy ih =>
    rcases h.closed x hxdone with hsettled | hnext
    · exact hsettled y (.head hxz hzy) hk
    · rcases hnext z hxz with hz | hz | hz
      · exact ih hz
      · cases hz
      · exact hz y hzy hk

theorem Walking.walk {fuel : Nat} (h : Walking next keep V S D stage done)
    (hcache : CacheOk next cache keep) (hV : ∀ v ∈ V, ∀ y ∈ next v, y ∈ V)
    (hfuel : (ahead V stage done).card ≤ fuel) :
    Walking next keep V S D [] (walk next cache fuel stage done) := by
  induction fuel generalizing stage done with
  | zero =>
    cases stage with
    | nil => exact h
    | cons x stage =>
      have hmem : x ∈ ahead V (x :: stage) done := by
        simp [ahead, h.stage_sub x mem_cons_self]
      have hempty := Finset.card_eq_zero.mp (Nat.le_zero.mp hfuel)
      rw [hempty] at hmem
      cases hmem
  | succ fuel ih =>
    cases stage with
    | nil => exact h
    | cons x stage =>
      obtain ⟨hnext, hless⟩ := h.step hcache hV (visited_foldl (next x) (stage, done.insert x))
      refine ih hnext ?_
      have := Finset.card_lt_card hless
      omega

/-- **What a walk finds**: the vertices it starts with, and those that can be reached from the
stage; of the ones that are kept it finds all. The result that it starts from is complete. -/
theorem mem_walk {fuel : Nat} (hcache : CacheOk next cache keep)
    (hV : ∀ v ∈ V, ∀ y ∈ next v, y ∈ V) (hS : ∀ y ∈ S, y ∈ V) (hSn : S.Nodup) (hDn : D.Nodup)
    (hD : ∀ x ∈ D, Settled next keep D x) (hfuel : V.card ≤ fuel) :
    (∀ y ∈ walk next cache fuel S D, y ∈ D ∨ ∃ x ∈ S, ReflTransGen (Edge next) x y) ∧
      (∀ y, keep y → (y ∈ D ∨ ∃ x ∈ S, ReflTransGen (Edge next) x y) →
        y ∈ walk next cache fuel S D) ∧
      (walk next cache fuel S D).Nodup := by
  have hstart : Walking next keep V S D S D :=
    ⟨fun y hy => ⟨y, hy, .refl⟩, fun _ => .inl, fun _ => .inr, fun _ => id,
      fun x hx => .inl (hD x hx), hS, hSn, hDn⟩
  have hend := hstart.walk hcache hV ((Finset.card_filter_le V _).trans hfuel)
  exact ⟨hend.done_sound, fun y hk hy => hy.elim (hend.old y) (hend.complete hk), hend.done_nodup⟩

end

end

/-! ## Removing vertices -/

section
variable {E E' : α → α → Prop} {V S : Finset α}

open Classical in
/-- The vertices that `x` reaches. -/
noncomputable def above (V : Finset α) (E : α → α → Prop) (x : α) : Finset α :=
  {a ∈ V | TransGen E x a}

open Classical in
/-- The vertices that reach `x`. -/
noncomputable def below (V : Finset α) (E : α → α → Prop) (x : α) : Finset α :=
  {d ∈ V | TransGen E d x}

variable {x : α}

@[simp] theorem mem_above {a : α} : a ∈ above V E x ↔ a ∈ V ∧ TransGen E x a := by simp [above]

@[simp] theorem mem_below {d : α} : d ∈ below V E x ↔ d ∈ V ∧ TransGen E d x := by simp [below]

theorem below_eq_above_swap (x : α) : below V E x = above V (Function.swap E) x := by
  ext d
  rw [mem_below, mem_above, transGen_swap]

/-- `E'` is what is left of `E` without the vertices in `S`. -/
def Restricts (E E' : α → α → Prop) (S : Finset α) : Prop :=
  ∀ c p, E' c p ↔ E c p ∧ c ∉ S ∧ p ∉ S

/-- The set contains all that is below its elements, or all that is above them. -/
def Closed (E : α → α → Prop) (S : Finset α) : Prop :=
  (∀ c p, E c p → p ∈ S → c ∈ S) ∨ ∀ c p, E c p → c ∈ S → p ∈ S

variable (h : Restricts E E' S)

include h

theorem Restricts.swap : Restricts (Function.swap E) (Function.swap E') S := by
  intro c p
  exact (h p c).trans (and_congr_right fun _ => and_comm)

theorem Restricts.mono {c p : α} (hcp : TransGen E' c p) : TransGen E c p :=
  TransGen.mono (fun a b hab => ((h a b).mp hab).1) c p hcp

/-- From a vertex that stays, the way up does not meet a set that contains all vertices below its
elements. -/
theorem Restricts.transGen_of_lower (hS : ∀ c p, E c p → p ∈ S → c ∈ S) {c p : α} (hc : c ∉ S)
    (hcp : TransGen E c p) : p ∉ S ∧ TransGen E' c p := by
  have hstep : ∀ {a b}, E a b → a ∉ S → b ∉ S := fun hab ha hb => ha (hS _ _ hab hb)
  induction hcp with
  | single hcp => exact ⟨hstep hcp hc, .single ((h _ _).mpr ⟨hcp, hc, hstep hcp hc⟩)⟩
  | tail _ hbp ih =>
    obtain ⟨hb, hcb⟩ := ih
    exact ⟨hstep hbp hb, hcb.tail ((h _ _).mpr ⟨hbp, hb, hstep hbp hb⟩)⟩

variable [DecidableEq α]

theorem above_restrict_of_lower (hS : ∀ c p, E c p → p ∈ S → c ∈ S) (hx : x ∉ S) :
    above (V \ S) E' x = above V E x := by
  ext a
  rw [mem_above, mem_above, Finset.mem_sdiff]
  constructor
  · rintro ⟨⟨ha, -⟩, hxa⟩
    exact ⟨ha, h.mono hxa⟩
  · rintro ⟨ha, hxa⟩
    obtain ⟨haS, hxa'⟩ := h.transGen_of_lower hS hx hxa
    exact ⟨⟨ha, haS⟩, hxa'⟩

theorem inter_above_of_lower (hS : ∀ c p, E c p → p ∈ S → c ∈ S) (hx : x ∉ S) :
    S ∩ above V E x = ∅ := by
  rw [← Finset.disjoint_iff_inter_eq_empty, Finset.disjoint_right]
  exact fun a ha => (h.transGen_of_lower hS hx (mem_above.mp ha).2).1

theorem inter_below_of_upper (hS : ∀ c p, E c p → c ∈ S → p ∈ S) (hx : x ∉ S) :
    S ∩ below V E x = ∅ := by
  rw [below_eq_above_swap]
  exact inter_above_of_lower h.swap (fun c p => hS p c) hx

theorem above_restrict (hS : Closed E S) (hx : x ∉ S) : above (V \ S) E' x = above V E x \ S := by
  ext a
  simp only [Finset.mem_sdiff, mem_above]
  refine ⟨fun ⟨⟨ha, haS⟩, hxa⟩ => ⟨⟨ha, h.mono hxa⟩, haS⟩, fun ⟨⟨ha, hxa⟩, haS⟩ => ⟨⟨ha, haS⟩, ?_⟩⟩
  rcases hS with hS | hS
  · exact (h.transGen_of_lower hS hx hxa).2
  · rw [← transGen_swap] at hxa ⊢
    exact (h.swap.transGen_of_lower (fun c p => hS p c) haS hxa).2

theorem below_restrict (hS : Closed E S) (hx : x ∉ S) : below (V \ S) E' x = below V E x \ S := by
  rw [below_eq_above_swap, below_eq_above_swap]
  exact above_restrict h.swap (hS.symm.imp (fun hS c p => hS p c) fun hS c p => hS p c) hx

end

/-! ## Edges that come late -/

section
variable {E E₀ : α → α → Prop} {V R : Finset α}

/-- `E₀` is `E` without the edges into `R` from outside. -/
def Detaches (E E₀ : α → α → Prop) (R : Finset α) : Prop :=
  ∀ c p, E₀ c p ↔ E c p ∧ ¬ (p ∈ R ∧ c ∉ R)

variable {x p c : α} (h : Detaches E E₀ R)

include h

theorem Detaches.mono (hcp : TransGen E₀ c p) : TransGen E c p :=
  TransGen.mono (fun a b hab => ((h a b).mp hab).1) c p hcp

/-- Without the late edges nothing leads into `R` from outside. -/
theorem Detaches.notMem_of_transGen (hc : c ∉ R) (hcp : TransGen E₀ c p) : p ∉ R := by
  induction hcp with
  | single hcp => exact fun hp => ((h _ _).mp hcp).2 ⟨hp, hc⟩
  | tail _ hqp ih => exact fun hp => ((h _ _).mp hqp).2 ⟨hp, ih⟩

variable (hR : ∀ c p, E c p → c ∈ R → p ∈ R)

include hR

theorem Detaches.transGen_of_notMem (hp : p ∉ R) (hcp : TransGen E c p) :
    c ∉ R ∧ TransGen E₀ c p := by
  induction hcp using TransGen.head_induction_on with
  | single hcp =>
    exact ⟨fun hc => hp (hR _ _ hcp hc), .single ((h _ _).mpr ⟨hcp, fun hb => hp hb.1⟩)⟩
  | head hcq _ ih =>
    obtain ⟨hq, hqp⟩ := ih
    exact ⟨fun hc => hq (hR _ _ hcq hc), .head ((h _ _).mpr ⟨hcq, fun hb => hq hb.1⟩) hqp⟩

theorem Detaches.transGen_of_mem (hc : c ∈ R) (hcp : TransGen E c p) : p ∈ R ∧ TransGen E₀ c p := by
  induction hcp with
  | single hcp => exact ⟨hR _ _ hcp hc, .single ((h _ _).mpr ⟨hcp, fun hb => hb.2 hc⟩)⟩
  | tail _ hqp ih =>
    obtain ⟨hq, hcq⟩ := ih
    exact ⟨hR _ _ hqp hq, hcq.tail ((h _ _).mpr ⟨hqp, fun hb => hb.2 hq⟩)⟩

theorem above_detach_of_mem (hx : x ∈ R) : above V E₀ x = above V E x := by
  ext a
  rw [mem_above, mem_above]
  exact and_congr_right fun _ => ⟨h.mono, fun hxa => (h.transGen_of_mem hR hx hxa).2⟩

theorem below_detach_of_notMem (hx : x ∉ R) : below V E₀ x = below V E x := by
  ext d
  rw [mem_below, mem_below]
  exact and_congr_right fun _ => ⟨h.mono, fun hdx => (h.transGen_of_notMem hR hx hdx).2⟩

variable [DecidableEq α]

theorem above_detach_of_notMem (hx : x ∉ R) : above V E₀ x = above V E x \ R := by
  ext a
  rw [Finset.mem_sdiff, mem_above, mem_above]
  constructor
  · rintro ⟨ha, hxa⟩
    exact ⟨⟨ha, h.mono hxa⟩, h.notMem_of_transGen hx hxa⟩
  · rintro ⟨⟨ha, hxa⟩, haR⟩
    exact ⟨ha, (h.transGen_of_notMem hR haR hxa).2⟩

theorem below_detach_of_mem (hx : x ∈ R) : below V E₀ x = below V E x ∩ R := by
  ext d
  rw [Finset.mem_inter, mem_below, mem_below]
  constructor
  · rintro ⟨hd, hdx⟩
    refine ⟨⟨hd, h.mono hdx⟩, ?_⟩
    by_contra hdR
    exact h.notMem_of_transGen hdR hdx hx
  · rintro ⟨⟨hd, hdx⟩, hdR⟩
    exact ⟨hd, (h.transGen_of_mem hR hdR hdx).2⟩

end

end Passion.Lib.Dag
