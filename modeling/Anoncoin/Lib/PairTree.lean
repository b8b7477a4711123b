import Mathlib.Data.List.Range

/-!
Trees over a list that are built level by level: neighbours are paired, and a last one that has no
neighbour is paired with itself. Two lists with the same top are the same or one is a level over the
other, unless some level ends with two equal elements that are paired.
-/

set_option autoImplicit false

namespace Anoncoin.Lib

section Levels
variable {α : Type}

/-- The pairs of a level. -/
def couples : List α → List (α × α)
  | [] => []
  | [x] => [(x,x)]
  | x :: y :: rest => (x,y) :: couples rest

@[simp] theorem length_couples (level : List α) :
    (couples level).length = (level.length+1)/2 := by
  induction level using couples.induct with
  | case1 => simp [couples]
  | case2 x => simp [couples]
  | case3 x y rest ih =>
    simp only [couples,List.length_cons,ih]
    omega

theorem couples_eq_map (level : List α) (d : α) :
    couples level = (List.range ((level.length+1)/2)).map fun k =>
      (level.getD (2*k) d,level.getD (min (2*k+1) (level.length-1)) d) := by
  induction level using couples.induct with
  | case1 => simp [couples]
  | case2 x => simp [couples]
  | case3 x y rest ih =>
    have hlength : ((x :: y :: rest).length+1)/2 = (rest.length+1)/2+1 := by
      simp only [List.length_cons]
      omega
    rw [couples,hlength,List.range_succ_eq_map,List.map_cons,List.map_map,ih]
    congr 1
    apply List.map_congr_left
    intro k hk
    have hrange := List.mem_range.mp hk
    have hmin : min (2*(k+1)+1) ((x :: y :: rest).length-1) =
        min (2*k+1) (rest.length-1)+1+1 := by
      simp only [List.length_cons]
      omega
    simp only [Function.comp_apply,Nat.succ_eq_add_one]
    rw [hmin,show 2*(k+1) = 2*k+1+1 by omega]
    rfl

/-- The last two of an even level are equal. -/
def endsTwice [DecidableEq α] : List α → Bool
  | [] => false
  | [_] => false
  | [x,y] => x == y
  | _ :: _ :: z :: rest => endsTwice (z :: rest)

theorem endsTwice_short [DecidableEq α] {level : List α} (h : ¬1 < level.length) :
    endsTwice level = false := by
  match level with
  | [] => rfl
  | [x] => rfl
  | x :: y :: rest => simp at h

theorem endsTwice_couple [DecidableEq α] (x y : α) (rest : List α) :
    endsTwice (x :: y :: rest) = ((rest.isEmpty && x == y) || endsTwice rest) := by
  cases rest with
  | nil => simp [endsTwice]
  | cons z rest => rfl

theorem endsTwice_iff [DecidableEq α] (level : List α) (d : α) :
    endsTwice level = true ↔ ∃ k, 2*k+2 = level.length ∧
      level.getD (2*k) d = level.getD (2*k+1) d := by
  induction level using endsTwice.induct with
  | case1 => simp [endsTwice]
  | case2 x => simp [endsTwice]
  | case3 x y =>
    constructor
    · intro h
      exact ⟨0,rfl,by simpa [endsTwice] using h⟩
    · rintro ⟨k,hk,heq⟩
      obtain rfl : k = 0 := by
        simp only [List.length_cons,List.length_nil] at hk
        omega
      simpa [endsTwice] using heq
  | case4 x y z rest ih =>
    rw [endsTwice,ih]
    constructor
    · rintro ⟨k,hk,heq⟩
      exact ⟨k+1,by simp only [List.length_cons] at hk ⊢; omega,heq⟩
    · rintro ⟨k,hk,heq⟩
      obtain ⟨k,rfl⟩ : ∃ n, k = n+1 := ⟨k-1,by simp only [List.length_cons] at hk; omega⟩
      exact ⟨k,by simp only [List.length_cons] at hk ⊢; omega,heq⟩

/-- The pairs of a level tell which level it is, if it does not end with two that are equal. -/
theorem eq_of_couples_eq [DecidableEq α] {l m : List α} (h : couples l = couples m)
    (hl : endsTwice l = false) (hm : endsTwice m = false) : l = m := by
  induction l using couples.induct generalizing m with
  | case1 =>
    match m with
    | [] => rfl
    | [x] => simp [couples] at h
    | x :: y :: rest => simp [couples] at h
  | case2 a =>
    match m with
    | [] => simp [couples] at h
    | [x] => simpa [couples] using h
    | [x,y] =>
      simp only [couples,List.cons.injEq,Prod.mk.injEq,and_true] at h
      simp [endsTwice,← h.1,← h.2] at hm
    | x :: y :: z :: rest => cases rest <;> simp [couples] at h
  | case3 a b rest ih =>
    match m with
    | [] => simp [couples] at h
    | [x] =>
      cases rest with
      | nil =>
        simp only [couples,List.cons.injEq,Prod.mk.injEq,and_true] at h
        simp [endsTwice,h.1,h.2] at hl
      | cons z rest => cases rest <;> simp [couples] at h
    | x :: y :: rest' =>
      simp only [couples,List.cons.injEq,Prod.mk.injEq] at h
      obtain ⟨⟨rfl,rfl⟩,h⟩ := h
      rw [endsTwice_couple,Bool.or_eq_false_iff] at hl hm
      rw [ih h hl.2 hm.2]

variable (pair : α → α → α)

/-- The level over a level. -/
def pairUp (level : List α) : List α := (couples level).map fun c => pair c.1 c.2

@[simp] theorem length_pairUp (level : List α) :
    (pairUp pair level).length = (level.length+1)/2 := by
  simp [pairUp]

/-- The levels of the tree, from the given one up. -/
def levels (level : List α) : List (List α) :=
  if 1 < level.length then level :: levels (pairUp pair level) else [level]
  termination_by level.length
  decreasing_by
    rw [length_pairUp]
    omega

/-- The level that has one element. -/
def topLevel (level : List α) : List α :=
  if 1 < level.length then topLevel (pairUp pair level) else level
  termination_by level.length
  decreasing_by
    rw [length_pairUp]
    omega

/-- The pairs that are hashed in the levels. -/
def hashedPairs (level : List α) : List (α × α) :=
  if 1 < level.length then couples level ++ hashedPairs (pairUp pair level) else []
  termination_by level.length
  decreasing_by
    rw [length_pairUp]
    omega

end Levels

section Top
variable {α : Type} {pair : α → α → α} {l m : List α}

theorem levels_step (h : 1 < l.length) : levels pair l = l :: levels pair (pairUp pair l) := by
  conv_lhs => unfold levels
  rw [if_pos h]

theorem levels_top (h : ¬1 < l.length) : levels pair l = [l] := by
  unfold levels
  rw [if_neg h]

theorem topLevel_step (h : 1 < l.length) : topLevel pair l = topLevel pair (pairUp pair l) := by
  conv_lhs => unfold topLevel
  rw [if_pos h]

theorem topLevel_top (h : ¬1 < l.length) : topLevel pair l = l := by
  unfold topLevel
  rw [if_neg h]

theorem hashedPairs_step (h : 1 < l.length) :
    hashedPairs pair l = couples l ++ hashedPairs pair (pairUp pair l) := by
  conv_lhs => unfold hashedPairs
  rw [if_pos h]

/-- The rule for what holds of every tree: it holds of a top, and of a level when it holds of the
one over it. -/
theorem induction_levels (pair : α → α → α) {P : List α → Prop} (top : ∀ l, ¬1 < l.length → P l)
    (step : ∀ l, 1 < l.length → P (pairUp pair l) → P l) (l : List α) : P l := by
  induction hn : l.length using Nat.strong_induction_on generalizing l with
  | _ n ih =>
    by_cases h : 1 < l.length
    · refine step l h (ih _ ?_ _ rfl)
      rw [length_pairUp]
      omega
    · exact top l h

theorem length_topLevel (pair : α → α → α) (h : l ≠ []) : (topLevel pair l).length = 1 := by
  induction l using induction_levels pair with
  | top l hl =>
    have := List.length_pos_iff.mpr h
    rw [topLevel_top hl]
    omega
  | step l hl ih =>
    rw [topLevel_step hl]
    refine ih (List.length_pos_iff.mp ?_)
    rw [length_pairUp]
    omega

theorem mem_levels_self (pair : α → α → α) (l : List α) : l ∈ levels pair l := by
  by_cases h : 1 < l.length
  · rw [levels_step h]
    exact List.mem_cons_self
  · rw [levels_top h]
    exact List.mem_singleton.mpr rfl

theorem topLevel_mem_levels (pair : α → α → α) (l : List α) :
    topLevel pair l ∈ levels pair l := by
  induction l using induction_levels pair with
  | top l h => rw [topLevel_top h,levels_top h]; exact List.mem_singleton.mpr rfl
  | step l h ih =>
    rw [topLevel_step h,levels_step h]
    exact List.mem_cons_of_mem _ ih

/-- A level is the given one or stands over another, whose pairs are hashed. -/
theorem mem_levels_cases (h : m ∈ levels pair l) :
    m = l ∨ ∃ m' ∈ levels pair l, 1 < m'.length ∧ m = pairUp pair m' := by
  induction l using induction_levels pair with
  | top l hl =>
    rw [levels_top hl] at h
    exact .inl (List.mem_singleton.mp h)
  | step l hl ih =>
    rw [levels_step hl] at h ⊢
    rcases List.mem_cons.mp h with rfl | h
    · exact .inl rfl
    · rcases ih h with rfl | ⟨m',hm',hlong,rfl⟩
      · exact .inr ⟨l,List.mem_cons_self,hl,rfl⟩
      · exact .inr ⟨m',List.mem_cons_of_mem _ hm',hlong,rfl⟩

theorem couples_subset_hashedPairs (h : m ∈ levels pair l) (hm : 1 < m.length) :
    ∀ c ∈ couples m, c ∈ hashedPairs pair l := by
  induction l using induction_levels pair with
  | top l hl =>
    rw [levels_top hl] at h
    rw [List.mem_singleton.mp h] at hm
    exact absurd hm hl
  | step l hl ih =>
    rw [levels_step hl] at h
    rw [hashedPairs_step hl]
    intro c hc
    rcases List.mem_cons.mp h with rfl | h
    · exact List.mem_append_left _ hc
    · exact List.mem_append_right _ (ih h c hc)

/-- Every element of a level over the given one is the hash of a pair. -/
theorem mem_level_over (h : m ∈ levels pair l) (hne : m ≠ l) {x : α} (hx : x ∈ m) :
    ∃ c ∈ hashedPairs pair l, x = pair c.1 c.2 := by
  rcases mem_levels_cases h with rfl | ⟨m',hmem,hlong,rfl⟩
  · exact absurd rfl hne
  · obtain ⟨c,hc,rfl⟩ := List.mem_map.mp hx
    exact ⟨c,couples_subset_hashedPairs hmem hlong c hc,rfl⟩

/-- No two different pairs of the two lists have the same hash. -/
def PairsInjective (pair : α → α → α) (cs ds : List (α × α)) : Prop :=
  ∀ c ∈ cs, ∀ d ∈ ds, pair c.1 c.2 = pair d.1 d.2 → c = d

theorem PairsInjective.symm {cs ds : List (α × α)} (h : PairsInjective pair cs ds) :
    PairsInjective pair ds cs :=
  fun d hd c hc heq => (h c hc d hd heq.symm).symm

theorem PairsInjective.mono {cs cs' ds ds' : List (α × α)} (h : PairsInjective pair cs ds)
    (hc : ∀ c ∈ cs', c ∈ cs) (hd : ∀ d ∈ ds', d ∈ ds) : PairsInjective pair cs' ds' :=
  fun c hc' d hd' => h c (hc c hc') d (hd d hd')

theorem eq_of_map_pair {cs ds : List (α × α)} (hinj : PairsInjective pair cs ds)
    (h : (cs.map fun c => pair c.1 c.2) = ds.map fun d => pair d.1 d.2) : cs = ds := by
  induction cs generalizing ds with
  | nil => exact (List.map_eq_nil_iff.mp h.symm).symm
  | cons c cs ih =>
    cases ds with
    | nil => simp at h
    | cons d ds =>
      simp only [List.map_cons,List.cons.injEq] at h
      rw [hinj c List.mem_cons_self d List.mem_cons_self h.1,
        ih (hinj.mono (fun _ => List.mem_cons_of_mem _) fun _ => List.mem_cons_of_mem _) h.2]

variable [DecidableEq α]

/-- Some level ends with two equal elements that are paired. -/
def treeMutated (pair : α → α → α) (l : List α) : Bool := (levels pair l).any endsTwice

theorem treeMutated_top (h : ¬1 < l.length) : treeMutated pair l = false := by
  unfold treeMutated
  rw [levels_top h]
  simp [endsTwice_short h]

theorem treeMutated_step (h : 1 < l.length) :
    treeMutated pair l = (endsTwice l || treeMutated pair (pairUp pair l)) := by
  unfold treeMutated
  rw [levels_step h,List.any_cons]

theorem endsTwice_of_mem_levels (h : treeMutated pair l = false) (hm : m ∈ levels pair l) :
    endsTwice m = false := by
  unfold treeMutated at h
  simpa using List.any_eq_false.mp h m hm

/-- If the level over one list stands in the tree of another, so does the list. -/
theorem mem_levels_of_pairUp (hinj : PairsInjective pair (couples l) (hashedPairs pair m))
    (hm : 1 < m.length) (hmutated : treeMutated pair m = false) (hl : endsTwice l = false)
    (h : pairUp pair l ∈ levels pair (pairUp pair m)) : l ∈ levels pair m := by
  have hbelow : ∃ m' ∈ levels pair m, 1 < m'.length ∧ pairUp pair l = pairUp pair m' := by
    rcases mem_levels_cases h with heq | ⟨m',hmem,hlong,heq⟩
    · exact ⟨m,mem_levels_self pair m,hm,heq⟩
    · refine ⟨m',?_,hlong,heq⟩
      rw [levels_step hm]
      exact List.mem_cons_of_mem _ hmem
  obtain ⟨m',hmem,hlong,heq⟩ := hbelow
  have hcouples : couples l = couples m' :=
    eq_of_map_pair (hinj.mono (fun _ hc => hc) (couples_subset_hashedPairs hmem hlong)) heq
  rw [eq_of_couples_eq hcouples hl (endsTwice_of_mem_levels hmutated hmem)]
  exact hmem

/-- Two lists with the same top: one is a level of the tree over the other, unless one of the
trees is mutated. -/
theorem mem_levels_of_topLevel_eq (hl : treeMutated pair l = false)
    (hm : treeMutated pair m = false)
    (hinj : PairsInjective pair (hashedPairs pair l) (hashedPairs pair m))
    (h : topLevel pair l = topLevel pair m) : l ∈ levels pair m ∨ m ∈ levels pair l := by
  induction l using induction_levels pair generalizing m with
  | top l hshort =>
    rw [topLevel_top hshort] at h
    rw [h]
    exact .inl (topLevel_mem_levels pair m)
  | step l hlong ih =>
    by_cases hmlong : 1 < m.length
    · have hl' := endsTwice_of_mem_levels hl (mem_levels_self pair l)
      have hm' := endsTwice_of_mem_levels hm (mem_levels_self pair m)
      have hnext : ∀ {k : List α}, 1 < k.length → treeMutated pair k = false →
          treeMutated pair (pairUp pair k) = false := by
        intro k hk hmutated
        rw [treeMutated_step hk,Bool.or_eq_false_iff] at hmutated
        exact hmutated.2
      rw [topLevel_step hlong,topLevel_step hmlong] at h
      rw [hashedPairs_step hlong,hashedPairs_step hmlong] at hinj
      have hhigher := hinj.mono (fun _ => List.mem_append_right _) fun _ => List.mem_append_right _
      rw [← hashedPairs_step hlong,← hashedPairs_step hmlong] at hinj
      rcases ih (hnext hlong hl) (hnext hmlong hm) hhigher h with hin | hin
      · refine .inl (mem_levels_of_pairUp (hinj.mono ?_ fun _ hd => hd) hmlong hm hl' hin)
        exact couples_subset_hashedPairs (mem_levels_self pair l) hlong
      · refine .inr (mem_levels_of_pairUp (hinj.symm.mono ?_ fun _ hd => hd) hlong hl hm' hin)
        exact couples_subset_hashedPairs (mem_levels_self pair m) hmlong
    · rw [topLevel_top hmlong] at h
      rw [← h]
      exact .inr (topLevel_mem_levels pair l)

/-- Two different lists with the same top have a mutated tree, if no pairs collide and no element
of one is the hash of a pair in the tree of the other. -/
theorem treeMutated_of_topLevel_eq (hne : l ≠ m) (hl : l ≠ []) (hm : m ≠ [])
    (hinj : PairsInjective pair (hashedPairs pair l) (hashedPairs pair m))
    (hleaf : ∀ x ∈ l, ∀ c ∈ hashedPairs pair m, x ≠ pair c.1 c.2)
    (hleaf' : ∀ x ∈ m, ∀ c ∈ hashedPairs pair l, x ≠ pair c.1 c.2)
    (h : topLevel pair l = topLevel pair m) :
    treeMutated pair l = true ∨ treeMutated pair m = true := by
  by_contra hnot
  rw [not_or,Bool.not_eq_true,Bool.not_eq_true] at hnot
  rcases mem_levels_of_topLevel_eq hnot.1 hnot.2 hinj h with hin | hin
  · obtain ⟨x,hx⟩ := List.exists_mem_of_ne_nil l hl
    obtain ⟨c,hc,heq⟩ := mem_level_over hin hne hx
    exact hleaf x hx c hc heq
  · obtain ⟨x,hx⟩ := List.exists_mem_of_ne_nil m hm
    obtain ⟨c,hc,heq⟩ := mem_level_over hin (Ne.symm hne) hx
    exact hleaf' x hx c hc heq

end Top

end Anoncoin.Lib
