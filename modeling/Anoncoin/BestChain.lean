import Anoncoin.TreeCalls

/-!
`ActivateBestChain` (main.cpp) returns, and ends at the best of its candidates. While it
moves the tip, some valid block stays a candidate together with all that rank above it.
-/

set_option autoImplicit false

namespace Anoncoin
open CBlockIndex

/-- A valid candidate such that every block without a failed ancestor that ranks with it
or above is a candidate too. -/
structure Reference (env : TreeEnv) (t : BlockTree) (r : CBlockIndex) : Prop where
  mem : r ∈ t.setBlockIndexCandidates
  clean : t.Clean r
  connects : ∀ a ∈ r.ancestors, env.connects a = true
  complete : CompleteFrom env t r

/-- The state inside `ActivateBestChain`. Once genesis was invalidated no block is clean. -/
structure Searching (env : TreeEnv) (t : BlockTree) (tip : CBlockIndex) : Prop where
  index : Indexed env t
  links : Linking t []
  active : Active env t tip
  bound : t.failedValid env.genesis = true ∨ ∃ r, Reference env t r

/-- What the search leaves as it was. Failures are only added, for blocks that
`ConnectBlock` rejects and for blocks above them, and candidates only leave. -/
structure Explored (env : TreeEnv) (t t' : BlockTree) : Prop where
  index : t'.mapBlockIndex = t.mapBlockIndex
  data : t'.haveData = t.haveData
  chainTx : t'.nChainTx = t.nChainTx
  sequence : t'.nSequenceId = t.nSequenceId
  counter : t'.nBlockSequenceId = t.nBlockSequenceId
  skip : t'.pskip = t.pskip
  failed : ∀ j, t.failed j = true → t'.failed j = true
  rejected : ∀ j, t'.failedValid j = true →
    t.failedValid j = true ∨ (env.connects j = false ∧ t.nChainTx j ≠ 0)
  marked : ∀ j, t'.failed j = true → t.failed j = true ∨ t.nChainTx j ≠ 0
  candidates : ∀ c ∈ t'.setBlockIndexCandidates, c ∈ t.setBlockIndexCandidates

namespace Explored
variable {env : TreeEnv} {t t₁ t₂ : BlockTree}

theorem refl (t : BlockTree) : Explored env t t where
  index := rfl
  data := rfl
  chainTx := rfl
  sequence := rfl
  counter := rfl
  skip := rfl
  failed _ h := h
  rejected _ h := .inl h
  marked _ h := .inl h
  candidates _ h := h

theorem trans (h₁ : Explored env t t₁) (h₂ : Explored env t₁ t₂) : Explored env t t₂ where
  index := h₂.index.trans h₁.index
  data := h₂.data.trans h₁.data
  chainTx := h₂.chainTx.trans h₁.chainTx
  sequence := h₂.sequence.trans h₁.sequence
  counter := h₂.counter.trans h₁.counter
  skip := h₂.skip.trans h₁.skip
  failed j h := h₂.failed j (h₁.failed j h)
  rejected j h := by
    rcases h₂.rejected j h with h | ⟨hc,hl⟩
    · exact h₁.rejected j h
    · exact .inr ⟨hc,h₁.chainTx ▸ hl⟩
  marked j h := by
    rcases h₂.marked j h with h | hl
    · exact h₁.marked j h
    · exact .inr (h₁.chainTx ▸ hl)
  candidates c h := h₁.candidates c (h₂.candidates c h)

theorem rank_eq (h : Explored env t t₁) (i : CBlockIndex) : env.rank t₁ i = env.rank t i := by
  unfold TreeEnv.rank
  rw [h.sequence]

theorem advanced (h : Explored env t t₁) : Advanced t t₁ :=
  Advanced.of_eq h.index h.chainTx h.sequence h.counter

theorem increasing (h : Explored env t t₁) (hinc : Increasing t) : Increasing t₁ := by
  intro j hj
  exact hinc j (h.index ▸ hj)

end Explored

section Boundary
variable {env : TreeEnv} {t : BlockTree} {tip : CBlockIndex}

theorem Active.clean (h : Active env t tip) (hindex : Indexed env t)
    (hgen : t.failedValid env.genesis = false) : t.Clean tip := by
  intro a ha
  by_cases hag : a = env.genesis
  · rw [hag]
    exact hgen
  · obtain ⟨p,hp,-⟩ := hindex.exists_pprev (hindex.closed tip h.mem a ha) hag
    have hf := h.unfailed a ha (by rw [hp]; exact Option.some_ne_none p)
    exact (Bool.or_eq_false_iff.mp hf).1

/-- Between calls the tip itself is such a candidate. -/
theorem TreeOk.searching (h : TreeOk env t tip) : Searching env t tip where
  index := h.index
  links := h.links
  active := h.active
  bound := by
    cases hgen : t.failedValid env.genesis with
    | true => exact .inl rfl
    | false =>
      have hclean := h.active.clean h.index hgen
      exact .inr ⟨tip,h.complete tip h.active.mem h.active.linked hclean (le_refl _),hclean,
        h.active.connects,h.complete⟩

theorem Indexed.not_clean (h : Indexed env t) (hgen : t.failedValid env.genesis = true)
    {i : CBlockIndex} (hi : i ∈ t.mapBlockIndex) : ¬t.Clean i := by
  intro hclean
  have hfalse := hclean _ (h.root i hi)
  rw [hgen] at hfalse
  contradiction

/-- A search that ends at a tip above all candidates leaves the tree in order. -/
theorem Searching.ok (h : Searching env t tip)
    (htop : ∀ c ∈ t.setBlockIndexCandidates, env.rank t c ≤ env.rank t tip) :
    TreeOk env t tip where
  index := h.index
  links := h.links
  active := h.active
  complete := by
    intro i hi hl hclean hr
    rcases h.bound with hgen | ⟨r,href⟩
    · exact absurd hclean (h.index.not_clean hgen hi)
    · exact href.complete i hi hl hclean ((htop r href.mem).trans hr)

end Boundary

section Prune
variable {env : TreeEnv} {t : BlockTree} {tip : CBlockIndex}

/-- Pruning leaves the candidates that rank with the tip or above. -/
theorem pruneBlockIndexCandidates_ok (h : Searching env t tip)
    (hguard : t.failedValid env.genesis = true →
      ∃ c ∈ t.setBlockIndexCandidates, env.rank t tip ≤ env.rank t c) :
    ∃ l, env.pruneBlockIndexCandidates t = some { t with setBlockIndexCandidates := l } ∧
      (∀ c, c ∈ l ↔ c ∈ t.setBlockIndexCandidates ∧ env.rank t tip ≤ env.rank t c) ∧
      Searching env { t with setBlockIndexCandidates := l } tip := by
  have hmem : ∀ c, c ∈ (t.setBlockIndexCandidates.filter fun c => !env.belowTip t c) ↔
      c ∈ t.setBlockIndexCandidates ∧ env.rank t tip ≤ env.rank t c := by
    intro c
    rw [List.mem_filter,← not_lt,← TreeEnv.belowTip_iff h.active.chain]
    simp
  have hbound : t.failedValid env.genesis = true ∨
      ∃ r, r ∈ t.setBlockIndexCandidates ∧ env.rank t tip ≤ env.rank t r ∧ t.Clean r ∧
        (∀ a ∈ r.ancestors, env.connects a = true) ∧ CompleteFrom env t r := by
    cases hgen : t.failedValid env.genesis with
    | true => exact .inl rfl
    | false =>
      obtain ⟨r,href⟩ := h.bound.resolve_left (by rw [hgen]; exact Bool.false_ne_true)
      rcases le_total (env.rank t tip) (env.rank t r) with hle | hle
      · exact .inr ⟨r,href.mem,hle,href.clean,href.connects,href.complete⟩
      · have hclean := h.active.clean h.index hgen
        exact .inr ⟨tip,href.complete tip h.active.mem h.active.linked hclean hle,le_refl _,hclean,
          h.active.connects,fun i hi hl hc hr => href.complete i hi hl hc (hle.trans hr)⟩
  have hne : (t.setBlockIndexCandidates.filter fun c => !env.belowTip t c).isEmpty = false := by
    obtain ⟨c,hc,hr⟩ : ∃ c ∈ t.setBlockIndexCandidates, env.rank t tip ≤ env.rank t c := by
      rcases hbound with hgen | ⟨r,hr,hle,-⟩
      · exact hguard hgen
      · exact ⟨r,hr,hle⟩
    rw [List.isEmpty_eq_false_iff_exists_mem]
    exact ⟨c,(hmem c).mpr ⟨hc,hr⟩⟩
  refine ⟨_,?_,hmem,{ h.index with },h.links.withCandidates fun x hx =>
    h.links.candidates x (List.mem_of_mem_filter hx),{ h.active with },?_⟩
  · unfold TreeEnv.pruneBlockIndexCandidates
    simp only [hne,Bool.false_eq_true,if_false]
  · rcases hbound with hgen | ⟨r,hr,hle,hclean,hcon,hcomp⟩
    · exact .inl hgen
    · refine .inr ⟨r,(hmem r).mpr ⟨hr,hle⟩,hclean,hcon,fun i hi hl hc hir => ?_⟩
      exact (hmem i).mpr ⟨hcomp i hi hl hc hir,hle.trans hir⟩

end Prune

section Connect
variable {env : TreeEnv} {t : BlockTree} {tip i : CBlockIndex}

theorem connected_eq (hi : i.pprev ≠ none) (hfail : t.failed i = false) :
    ∃ v, TreeEnv.connected t i = { t with
        haveUndo := Function.update t.haveUndo i true, validity := v } ∧
      (∀ j, j ≠ i → v j = t.validity j) ∧ 5 ≤ (v i).level ∧
      (t.validity i).level ≤ (v i).level := by
  cases i with
  | genesis d => exact absurd rfl hi
  | child d p =>
    obtain ⟨v,heq,hother,htop,hraise,-⟩ := @raiseValidity_eq { t with
      haveUndo := Function.update t.haveUndo (.child d p) true } (.child d p) hfail .scripts
    exact ⟨v,heq,hother,htop,hraise⟩

/-- A block on top of the tip that `ConnectBlock` accepts becomes the tip. -/
theorem connectTip_accepted (h : Searching env t tip) (hp : i.pprev = some tip)
    (hi : i ∈ t.mapBlockIndex) (hlinked : t.nChainTx i ≠ 0) (hfail : t.failed i = false)
    (hcon : env.connects i = true) :
    ∃ u v, env.connectTip t i = some (true,{ t with
        haveUndo := u, validity := v, chainActive := .pathTo i }) ∧
      Searching env { t with haveUndo := u, validity := v, chainActive := .pathTo i } i := by
  have hne : i.pprev ≠ none := by
    rw [hp]
    exact Option.some_ne_none tip
  obtain ⟨v,heq,hother,htop,hraise⟩ := connected_eq hne hfail
  have hmono : ∀ j, (t.validity j).level ≤ (v j).level := by
    intro j
    by_cases hji : j = i
    · rw [hji]
      exact hraise
    · rw [hother j hji]
  have hanc : ∀ a, a ∈ i.ancestors → a = i ∨ a ∈ tip.ancestors := fun a ha =>
    (mem_ancestors_pprev hp).mp ha
  have hscripts : ∀ a ∈ i.ancestors, a.pprev ≠ none → 5 ≤ (v a).level := by
    intro a ha hap
    rcases hanc a ha with rfl | hat
    · exact htop
    · exact (h.active.scripts a hat hap).trans (hmono a)
  have hgen : env.genesis ≠ i := by
    intro he
    rw [← he] at hne
    exact hne rfl
  refine ⟨Function.update t.haveUndo i true,v,?_,?_⟩
  · unfold TreeEnv.connectTip
    rw [if_pos (by rw [hp,h.active.chain,CChain.pathTo_tip]),if_pos hcon,heq]
    simp only [h.active.chain,CChain.setTip_pathTo]
  · exact
      { index :=
          { h.index with
            tree := fun j hj => (h.index.tree j hj).trans (hmono j)
            transactions := fun j hj hd => (h.index.transactions j hj hd).trans (hmono j)
            scripts := by
              intro j hj h4 a ha hap
              by_cases hji : j = i
              · exact hscripts a (hji ▸ ha) hap
              · change 4 ≤ (v j).level at h4
                rw [hother j hji] at h4
                exact (h.index.scripts j hj h4 a ha hap).trans (hmono a) }
        links := { h.links with }
        active :=
          { chain := rfl
            mem := hi
            linked := hlinked
            undo := by
              intro a ha hap
              show Function.update t.haveUndo i true a = true
              by_cases hai : a = i
              · rw [hai,Function.update_self]
              · rw [Function.update_of_ne hai]
                exact h.active.undo a ((hanc a ha).resolve_left hai) hap
            scripts := hscripts
            unfailed := by
              intro a ha hap
              rcases hanc a ha with rfl | hat
              · exact hfail
              · exact h.active.unfailed a hat hap
            connects := by
              intro a ha
              rcases hanc a ha with rfl | hat
              · exact hcon
              · exact h.active.connects a hat
            genesis := (Function.update_of_ne hgen _ _).trans h.active.genesis }
        bound := h.bound.imp_right (Exists.imp fun _ hr => { hr with }) }

theorem Searching.invalidChainFound (h : Searching env t tip) (b : CBlockIndex) :
    Searching env (t.invalidChainFound b) tip :=
  ⟨{ h.index with },{ h.links with },{ h.active with },
    h.bound.imp_right (Exists.imp fun _ hr => { hr with })⟩

/-- A block that `ConnectBlock` rejects is marked, and the tip stays. -/
theorem connectTip_rejected (h : Searching env t tip) (hp : i.pprev = some tip)
    (hcon : env.connects i = false) :
    env.connectTip t i = some (false,t.invalidBlockFound i) ∧
      Searching env (t.invalidBlockFound i) tip := by
  refine ⟨?_,{ h.index.setFailedValid i with },
    { (h.links.setFailedValid i).eraseCandidate i with },?_,?_⟩
  · unfold TreeEnv.connectTip
    rw [if_pos (by rw [hp,h.active.chain,CChain.pathTo_tip]),if_neg (by rw [hcon]; decide)]
  · refine { h.active with unfailed := ?_ }
    intro a ha hap
    have hai : a ≠ i := by
      intro he
      have := h.active.connects a ha
      rw [he,hcon] at this
      contradiction
    simp only [BlockTree.failed,BlockTree.invalidBlockFound,BlockTree.setFailedValid,
      BlockTree.eraseCandidate,BlockTree.invalidChainFound,Function.update_of_ne hai]
    exact h.active.unfailed a ha hap
  · rcases h.bound with hgen | ⟨r,hr⟩
    · exact .inl (setFailedValid_mono hgen)
    · have hir : ∀ a ∈ r.ancestors, a ≠ i := by
        intro a ha he
        have := hr.connects a ha
        rw [he,hcon] at this
        contradiction
      have hold : ∀ j, (t.setFailedValid i).Clean j → t.Clean j ∧ j ≠ i := by
        intro j hj
        refine ⟨fun a ha => Bool.eq_false_iff.mpr fun hva => ?_,fun he => ?_⟩
        · have hfalse : Function.update t.failedValid i true a = false := hj a ha
          rw [setFailedValid_mono hva] at hfalse
          contradiction
        · have hfalse : Function.update t.failedValid i true j = false :=
            hj j (self_mem_ancestors j)
          rw [he,Function.update_self] at hfalse
          contradiction
      refine .inr ⟨r,?_,?_,hr.connects,?_⟩
      · exact List.mem_filter.mpr ⟨hr.mem,by simpa using hir r (self_mem_ancestors r)⟩
      · intro a ha
        exact (Function.update_of_ne (hir a ha) _ _).trans (hr.clean a ha)
      · intro j hj hl hclean hrank
        obtain ⟨hc,hne⟩ := hold j hclean
        exact List.mem_filter.mpr ⟨hr.complete j hj hl hc hrank,by simpa using hne⟩

theorem explored_invalidBlockFound (hcon : env.connects i = false) (hlinked : t.nChainTx i ≠ 0) :
    Explored env t (t.invalidBlockFound i) where
  index := rfl
  data := rfl
  chainTx := rfl
  sequence := rfl
  counter := rfl
  skip := rfl
  failed _ h := failed_setFailedValid_mono h
  rejected j h := by
    by_cases hji : j = i
    · exact .inr ⟨hji ▸ hcon,hji ▸ hlinked⟩
    · change Function.update t.failedValid i true j = true at h
      rw [Function.update_of_ne hji] at h
      exact .inl h
  marked j h := by
    by_cases hji : j = i
    · exact .inr (hji ▸ hlinked)
    · change (Function.update t.failedValid i true j || t.failedChild j) = true at h
      rw [Function.update_of_ne hji] at h
      exact .inl h
  candidates _ h := List.mem_of_mem_filter h

end Connect

section Stretch
variable {env : TreeEnv} {t : BlockTree} {tip i mw : CBlockIndex}

/-- Each block of the list is the child of the one before, and the first of `tip`. -/
def Extends : CBlockIndex → List CBlockIndex → Prop
  | _, [] => True
  | tip, i :: rest => i.pprev = some tip ∧ Extends i rest

/-- The tip once the blocks of a list are connected. -/
def endOf : CBlockIndex → List CBlockIndex → CBlockIndex
  | tip, [] => tip
  | _, i :: rest => endOf i rest

theorem extends_concat {tip b : CBlockIndex} {l : List CBlockIndex} (h : Extends tip l)
    (hb : b.pprev = some (endOf tip l)) : Extends tip (l ++ [b]) ∧ endOf tip (l ++ [b]) = b := by
  induction l generalizing tip with
  | nil => exact ⟨⟨hb,trivial⟩,rfl⟩
  | cons x rest ih =>
    obtain ⟨hext,hend⟩ := ih h.2 hb
    exact ⟨⟨h.1,hext⟩,hend⟩

/-- The blocks between an ancestor and an entry, lowest first. -/
theorem toConnect_reverse {tip b : CBlockIndex} (h : tip ∈ b.ancestors) :
    Extends tip (BlockTree.toConnect tip.nHeight b).reverse ∧
      endOf tip (BlockTree.toConnect tip.nHeight b).reverse = b ∧
      ∀ a ∈ BlockTree.toConnect tip.nHeight b, a ∈ b.ancestors ∧ a ∉ tip.ancestors := by
  induction b with
  | genesis d =>
    obtain rfl := List.mem_singleton.mp h
    simp [BlockTree.toConnect,Extends,endOf]
  | child d q ih =>
    unfold BlockTree.toConnect
    by_cases heq : tip = .child d q
    · subst heq
      simp [Extends,endOf]
    · have htq : tip ∈ q.ancestors := (List.mem_cons.mp h).resolve_left heq
      have hheight : ((CBlockIndex.child d q).nHeight : Int) ≠ tip.nHeight := by
        have := nHeight_le_of_mem_ancestors htq
        simp only [nHeight]
        omega
      obtain ⟨hext,hend,hmem⟩ := ih htq
      rw [if_neg hheight,List.reverse_cons]
      have hconcat := @extends_concat tip (.child d q) _ hext (by rw [hend]; rfl)
      refine ⟨hconcat.1,hconcat.2,fun a ha => ?_⟩
      rcases List.mem_cons.mp ha with rfl | haq
      · refine ⟨by simp,fun hat => ?_⟩
        have h1 := nHeight_le_of_mem_ancestors hat
        have h2 := nHeight_le_of_mem_ancestors htq
        simp only [nHeight] at h1
        omega
      · exact ⟨List.mem_cons_of_mem _ (hmem a haq).1,(hmem a haq).2⟩

/-- How a search towards `mw` from the old tip may end: at `mw`, at a tip with more work,
or with one more failed block. -/
def SearchProgress (t t' : BlockTree) (old tip' mw : CBlockIndex) : Prop :=
  tip' = mw ∨ old.nChainWork < tip'.nChainWork ∨
    ∃ i ∈ t.mapBlockIndex, t.failed i = false ∧ t'.failed i = true

/-- What the search needs of the block it is heading for. -/
structure Target (env : TreeEnv) (t : BlockTree) (mw : CBlockIndex) : Prop where
  mem : mw ∈ t.mapBlockIndex
  linked : t.nChainTx mw ≠ 0
  guard : t.failedValid env.genesis = true → mw ∈ t.setBlockIndexCandidates ∧
    ∀ a ∈ mw.ancestors, env.rank t a ≤ env.rank t mw

theorem connectBlocks_ok {l : List CBlockIndex} (h : Searching env t tip)
    (htarget : Target env t mw) (hmem : ∀ i ∈ l, i ∈ mw.ancestors)
    (hunfailed : ∀ i ∈ l, t.failed i = false) (hext : Extends tip l) (old : CBlockIndex)
    (back : Option CBlockIndex) :
    ∃ ok t' tip', env.connectBlocks (some old) back l t = some (ok,t') ∧
      Searching env t' tip' ∧ Explored env t t' ∧
      (SoundFrom env t tip → SoundFrom env t' tip') ∧
      ((ok = true ∧ tip' = endOf tip l ∧ Target env t' mw ∧
          t'.failedValid = t.failedValid ∧ t'.failedChild = t.failedChild) ∨
        (ok = false ∧ SearchProgress t t' old tip' mw)) := by
  induction l generalizing t tip with
  | nil => exact ⟨true,t,tip,rfl,h,.refl t,id,.inl ⟨rfl,rfl,htarget,rfl,rfl⟩⟩
  | cons i rest ih =>
    have himw := hmem i (by simp)
    have hi := h.index.closed mw htarget.mem i himw
    have hil := h.links.ancestors mw htarget.mem htarget.linked i himw
    have hif := hunfailed i (by simp)
    unfold TreeEnv.connectBlocks
    cases hcon : env.connects i with
    | false =>
      obtain ⟨heq,hs⟩ := connectTip_rejected h hext.1 hcon
      have hexp := @explored_invalidBlockFound env t i hcon hil
      have hfailed : (t.invalidBlockFound i).failed i = true := by
        simp [BlockTree.failed,BlockTree.invalidBlockFound,BlockTree.setFailedValid,
          BlockTree.eraseCandidate,BlockTree.invalidChainFound]
      have hsound : SoundFrom env t tip → SoundFrom env (t.invalidBlockFound i) tip :=
        fun hsnd c hc => hsnd c (List.mem_of_mem_filter hc)
      rw [heq]
      cases back with
      | none =>
        exact ⟨false,_,tip,rfl,hs,hexp,hsound,.inr ⟨rfl,.inr (.inr ⟨i,hi,hif,hfailed⟩)⟩⟩
      | some b =>
        exact ⟨false,(t.invalidBlockFound i).invalidChainFound b,tip,rfl,
          hs.invalidChainFound b,{ hexp with },hsound,
          .inr ⟨rfl,.inr (.inr ⟨i,hi,hif,hfailed⟩)⟩⟩
    | true =>
      obtain ⟨u,v,heq,hs⟩ := connectTip_accepted h hext.1 hi hil hif hcon
      obtain ⟨c,hprune,hc,hs'⟩ := pruneBlockIndexCandidates_ok hs
        fun hgen => ⟨mw,(htarget.guard hgen).1,(htarget.guard hgen).2 i himw⟩
      have hexp : Explored env t { t with
          haveUndo := u, validity := v, chainActive := .pathTo i, setBlockIndexCandidates := c } :=
        { Explored.refl t with
          candidates := fun x hx => ((hc x).mp hx).1 }
      have hsound : SoundFrom env { t with
          haveUndo := u, validity := v, chainActive := .pathTo i, setBlockIndexCandidates := c } i :=
        fun x hx => ((hc x).mp hx).2
      rw [heq]
      simp only [hprune]
      split
      · rename_i himp
        refine ⟨false,_,i,rfl,hs',hexp,fun _ => hsound,.inr ⟨rfl,.inr (.inl ?_)⟩⟩
        simpa [TreeEnv.improved] using himp
      · have htarget' : Target env { t with
            haveUndo := u, validity := v, chainActive := .pathTo i,
            setBlockIndexCandidates := c } mw :=
          { htarget with
            guard := fun hgen => ⟨(hc mw).mpr ⟨(htarget.guard hgen).1,(htarget.guard hgen).2 i himw⟩,
              (htarget.guard hgen).2⟩ }
        obtain ⟨ok,t',tip',heq',hs'',hexp',hsound',hend⟩ := ih hs' htarget'
          (fun x hx => hmem x (List.mem_cons_of_mem _ hx))
          (fun x hx => hunfailed x (List.mem_cons_of_mem _ hx)) hext.2
        exact ⟨ok,t',tip',heq',hs'',hexp.trans hexp',fun _ => hsound' hsound,hend⟩

/-- The stretches of up to 32 blocks lead to the block the search is heading for, unless
it stops before. -/
theorem connectStretches_ok (h : Searching env t tip) (htarget : Target env t mw)
    (htip : tip ∈ mw.ancestors)
    (hunfailed : ∀ a ∈ mw.ancestors, a ∉ tip.ancestors → t.failed a = false)
    (old : CBlockIndex) :
    ∃ t' tip', env.connectStretches (some old) mw tip.nHeight t = some t' ∧
      Searching env t' tip' ∧ Explored env t t' ∧
      (SoundFrom env t tip → SoundFrom env t' tip') ∧ SearchProgress t t' old tip' mw := by
  obtain ⟨n,hn⟩ : ∃ n, mw.nHeight-tip.nHeight = n := ⟨_,rfl⟩
  induction n using Nat.strong_induction_on generalizing t tip with
  | _ n ih =>
    have hle := nHeight_le_of_mem_ancestors htip
    rw [TreeEnv.connectStretches]
    split
    · rename_i heq
      have hmw := ancestors_eq_of_nHeight htip (self_mem_ancestors mw) (by omega)
      exact ⟨t,tip,rfl,h,.refl t,id,.inl hmw⟩
    · rename_i hne
      obtain ⟨k,hk⟩ : ∃ k : Nat, min ((tip.nHeight : Int)+32) mw.nHeight = k :=
        ⟨min (tip.nHeight+32) mw.nHeight,by omega⟩
      obtain ⟨b,hb⟩ := @exists_ancestorAt mw k (by omega)
      obtain ⟨hbmw,hbheight⟩ := ancestorAt_eq_some.mp hb
      have hskip := h.index.skip mw htarget.mem
      have htb : tip ∈ b.ancestors := ancestors_nested htip hbmw (by omega)
      obtain ⟨hext,hend,hmem⟩ := toConnect_reverse htb
      simp only [hk,getAncestor_eq hskip (show k ≤ mw.nHeight by omega),hb,Option.elim_some]
      obtain ⟨ok,t₁,tip₁,heq₁,hs₁,hexp₁,hsound₁,hend₁⟩ := connectBlocks_ok h htarget
        (fun a ha => ancestors_trans (hmem a (List.mem_reverse.mp ha)).1 hbmw)
        (fun a ha => hunfailed a (ancestors_trans (hmem a (List.mem_reverse.mp ha)).1 hbmw)
          (hmem a (List.mem_reverse.mp ha)).2) hext old
        (BlockTree.toConnect tip.nHeight b).getLast?
      rw [heq₁]
      rcases hend₁ with ⟨rfl,htip₁,htarget₁,hv,hc⟩ | ⟨rfl,hprog⟩
      · have htip₁ : tip₁ = b := htip₁.trans hend
        subst htip₁
        have hfailed : t₁.failed = t.failed := by
          funext a
          unfold BlockTree.failed
          rw [hv,hc]
        obtain ⟨t',tip',heq',hs',hexp',hsound',hprog⟩ := ih (mw.nHeight-tip₁.nHeight) (by omega)
          hs₁ htarget₁ hbmw (fun a ha hna => by
            rw [hfailed]
            exact hunfailed a ha fun hat => hna (ancestors_trans hat htb)) rfl
        refine ⟨t',tip',by rw [← hbheight]; exact heq',hs',hexp₁.trans hexp',
          fun hs => hsound' (hsound₁ hs),?_⟩
        rcases hprog with hmw | hwork | ⟨i,hi,hif,hif'⟩
        · exact .inl hmw
        · exact .inr (.inl hwork)
        · exact .inr (.inr ⟨i,hexp₁.index ▸ hi,hfailed ▸ hif,hif'⟩)
      · exact ⟨t₁,tip₁,rfl,hs₁,hexp₁,hsound₁,hprog⟩

/-- Disconnecting down to an ancestor of the tip. -/
theorem disconnectTo_ok {fork : CBlockIndex} (hchain : t.chainActive = .pathTo tip)
    (hundo : ∀ a ∈ tip.ancestors, a.pprev ≠ none → t.haveUndo a = true)
    (hfork : fork ∈ tip.ancestors) :
    BlockTree.disconnectTo (some fork) tip t = some { t with chainActive := .pathTo fork } := by
  induction tip generalizing t with
  | genesis d =>
    obtain rfl := List.mem_singleton.mp hfork
    unfold BlockTree.disconnectTo
    rw [if_pos rfl,← hchain]
  | child d p ih =>
    unfold BlockTree.disconnectTo
    by_cases heq : fork = .child d p
    · rw [if_pos (by rw [heq]),heq,← hchain]
    · have hfp : fork ∈ p.ancestors := (List.mem_cons.mp hfork).resolve_left heq
      rw [if_neg fun he => heq (Option.some.inj he).symm,
        disconnectTip_child hchain
          (hundo (.child d p) (self_mem_ancestors _) (Option.some_ne_none p)),Option.bind_some]
      exact @ih { t with chainActive := .pathTo p } rfl
        (fun a ha => hundo a (List.mem_cons_of_mem _ ha)) hfp

theorem Searching.disconnected (h : Searching env t tip) {fork : CBlockIndex}
    (hfork : fork ∈ tip.ancestors) :
    Searching env { t with chainActive := .pathTo fork } fork where
  index := { h.index with }
  links := { h.links with }
  active :=
    { chain := rfl
      mem := h.index.closed tip h.active.mem fork hfork
      linked := h.links.ancestors tip h.active.mem h.active.linked fork hfork
      undo := fun a ha => h.active.undo a (ancestors_trans ha hfork)
      scripts := fun a ha => h.active.scripts a (ancestors_trans ha hfork)
      unfailed := fun a ha => h.active.unfailed a (ancestors_trans ha hfork)
      connects := fun a ha => h.active.connects a (ancestors_trans ha hfork)
      genesis := h.active.genesis }
  bound := h.bound.imp_right (Exists.imp fun _ hr => { hr with })

/-- One step of `ActivateBestChain` towards a block whose path to the active chain is
free of failures. -/
theorem activateBestChainStep_ok (h : Searching env t tip) (htarget : Target env t mw)
    (hunfailed : ∀ a ∈ mw.ancestors, a ∉ tip.ancestors → t.failed a = false) :
    ∃ t' tip', env.activateBestChainStep t mw = some t' ∧ Searching env t' tip' ∧
      Explored env t t' ∧ (Increasing t → SoundFrom env t tip → SoundFrom env t' tip') ∧
      SearchProgress t t' tip tip' mw := by
  obtain ⟨fork,hfind,hft,hfm,hall⟩ := CChain.findFork_pathTo (h.index.skip mw htarget.mem)
    (h.index.root mw htarget.mem) (h.index.root tip h.active.mem)
  have hs := h.disconnected hft
  have htarget' : Target env { t with chainActive := .pathTo fork } mw := { htarget with }
  obtain ⟨t',tip',heq,hs',hexp,hsound,hprog⟩ := connectStretches_ok hs htarget' hfm
    (fun a ha hna => hunfailed a ha fun hat => hna (hall a ha hat)) tip
  refine ⟨t',tip',?_,hs',?_,?_,hprog⟩
  · unfold TreeEnv.activateBestChainStep
    simp only [h.active.chain,CChain.pathTo_tip,hfind,Option.elim_some,
      disconnectTo_ok h.active.chain h.active.undo hft]
    exact heq
  · exact { hexp with }
  · intro hinc hsnd
    refine hsound fun c hc => ?_
    exact (hinc.rank_le h.index h.active.mem hft).trans (hsnd c hc)

end Stretch

section Find
variable {env : TreeEnv} {t : BlockTree} {tip i f : CBlockIndex}

/-- The walk from a linked block to the active chain. -/
theorem findFailed_ok (hchain : t.chainActive = .pathTo tip)
    (hdata : ∀ a ∈ i.ancestors, t.haveData a = true)
    (hlinked : ∀ a ∈ i.ancestors, t.nChainTx a ≠ 0) :
    (BlockTree.findFailed t i = some none ∧
        ∀ a ∈ i.ancestors, a ∉ tip.ancestors → t.failed a = false) ∨
      ∃ f ∈ i.ancestors, BlockTree.findFailed t i = some (some f) ∧ f ∉ tip.ancestors ∧
        t.failed f = true := by
  have hcontains : ∀ a, t.chainActive.contains a = true ↔ a ∈ tip.ancestors := by
    intro a
    rw [hchain]
    exact CChain.pathTo_contains _ _
  induction i with
  | genesis d =>
    unfold BlockTree.findFailed
    have hd := hdata (.genesis d) (by simp)
    split
    · rename_i hc
      refine .inl ⟨rfl,fun a ha hna => ?_⟩
      rw [List.mem_singleton.mp ha] at hna
      exact absurd ((hcontains _).mp hc) hna
    · rename_i hc
      simp only [hd,Bool.not_true,Bool.false_eq_true,if_false]
      split
      · rename_i hf
        exact .inr ⟨.genesis d,by simp,rfl,fun hm => hc ((hcontains _).mpr hm),hf⟩
      · rename_i hf
        refine .inl ⟨rfl,fun a ha _ => ?_⟩
        rw [List.mem_singleton.mp ha]
        exact Bool.eq_false_iff.mpr hf
  | child d p ih =>
    unfold BlockTree.findFailed
    have hd := hdata (.child d p) (by simp)
    have hl := hlinked (.child d p) (by simp)
    split
    · rename_i hc
      refine .inl ⟨rfl,fun a ha hna => ?_⟩
      exact absurd (ancestors_trans ha ((hcontains _).mp hc)) hna
    · rename_i hc
      simp only [hd,Bool.not_true,Bool.false_or,beq_iff_eq,hl,if_false]
      split
      · rename_i hf
        exact .inr ⟨.child d p,by simp,rfl,fun hm => hc ((hcontains _).mpr hm),hf⟩
      · rename_i hf
        rcases ih (fun a ha => hdata a (List.mem_cons_of_mem _ ha))
            (fun a ha => hlinked a (List.mem_cons_of_mem _ ha)) with
          ⟨heq,hnone⟩ | ⟨f,hfm,heq,hnf,hff⟩
        · refine .inl ⟨heq,fun a ha hna => ?_⟩
          rcases List.mem_cons.mp ha with rfl | hap
          · exact Bool.eq_false_iff.mpr hf
          · exact hnone a hap hna
        · exact .inr ⟨f,List.mem_cons_of_mem _ hfm,heq,hnf,hff⟩

/-- The blocks from a candidate down to a failed one are marked and leave the candidates. -/
theorem eraseFailed_ok (hf : f ∈ i.ancestors) :
    ∃ c l, BlockTree.eraseFailed f i t =
        { t with failedChild := c, setBlockIndexCandidates := l } ∧
      (∀ j, t.failedChild j = true → c j = true) ∧
      (∀ j, c j = true → t.failedChild j = true ∨ (f ∈ j.ancestors ∧ j ∈ i.ancestors)) ∧
      (∀ x ∈ l, x ∈ t.setBlockIndexCandidates) ∧
      (∀ x ∈ t.setBlockIndexCandidates, f ∉ x.ancestors → x ∈ l) := by
  have hkeep : ∀ b : CBlockIndex, f ∈ b.ancestors → ∀ x ∈ t.setBlockIndexCandidates,
      f ∉ x.ancestors → x ∈ (t.eraseCandidate b).setBlockIndexCandidates := by
    intro b hb x hx hfx
    refine List.mem_filter.mpr ⟨hx,?_⟩
    have hne : x ≠ b := fun he => hfx (he ▸ hb)
    simpa using hne
  induction i generalizing t with
  | genesis d =>
    obtain rfl := List.mem_singleton.mp hf
    unfold BlockTree.eraseFailed
    rw [if_neg (not_not.mpr rfl)]
    exact ⟨_,_,rfl,fun _ h => h,fun _ h => .inl h,fun _ h => List.mem_of_mem_filter h,
      hkeep _ (by simp)⟩
  | child d p ih =>
    unfold BlockTree.eraseFailed
    by_cases hfi : f = .child d p
    · rw [if_neg (not_not.mpr hfi)]
      exact ⟨_,_,rfl,fun _ h => h,fun _ h => .inl h,fun _ h => List.mem_of_mem_filter h,
        hkeep _ hf⟩
    · have hfp : f ∈ p.ancestors := (List.mem_cons.mp hf).resolve_left hfi
      rw [if_pos hfi]
      obtain ⟨c,l,heq,hmono,hcases,hl,hstay⟩ :=
        @ih ((t.setFailedChild (.child d p)).eraseCandidate (.child d p)) hfp (by
          intro b hb x hx hfx
          refine List.mem_filter.mpr ⟨hx,?_⟩
          have hne : x ≠ b := fun he => hfx (he ▸ hb)
          simpa using hne)
      refine ⟨c,l,heq,fun j hj => hmono j (setFailedChild_mono _ hj),?_,
        fun x hx => List.mem_of_mem_filter (hl x hx),fun x hx hfx => hstay x (hkeep _ hf x hx hfx) hfx⟩
      intro j hj
      rcases hcases j hj with hold | ⟨hfj,hjp⟩
      · by_cases hji : j = .child d p
        · exact .inr ⟨hji ▸ hf,hji ▸ self_mem_ancestors _⟩
        · change Function.update t.failedChild (.child d p) true j = true at hold
          rw [Function.update_of_ne hji] at hold
          exact .inl hold
      · exact .inr ⟨hfj,List.mem_cons_of_mem _ hjp⟩

theorem Searching.eraseFailed (h : Searching env t tip) (hi : i ∈ t.mapBlockIndex)
    (hil : t.nChainTx i ≠ 0) (hf : f ∈ i.ancestors) (hft : f ∉ tip.ancestors)
    (hff : t.failed f = true) :
    Searching env (BlockTree.eraseFailed f i t) tip ∧
      Explored env t (BlockTree.eraseFailed f i t) := by
  obtain ⟨c,l,heq,hmono,hcases,hl,hstay⟩ := @eraseFailed_ok t i f hf
  have hfm := h.index.closed i hi f hf
  obtain ⟨g,hgf,hgv⟩ := h.index.exists_invalid hfm hff
  have hfmono : ∀ j, t.failed j = true → (t.failedValid j || c j) = true := by
    intro j hj
    rcases Bool.or_eq_true_iff.mp hj with hv | hc
    · rw [hv,Bool.true_or]
    · rw [hmono j hc,Bool.or_true]
  have hmarks : ∀ j, (t.failedValid j || c j) = true →
      t.failed j = true ∨ (f ∈ j.ancestors ∧ j ∈ i.ancestors) := by
    intro j hj
    rcases Bool.or_eq_true_iff.mp hj with hv | hc
    · exact .inl (by rw [BlockTree.failed,hv,Bool.true_or])
    · exact (hcases j hc).imp_left fun hc => by rw [BlockTree.failed,hc,Bool.or_true]
  rw [heq]
  refine ⟨⟨{ h.index.withMarks (v := t.failedValid) (c := c) ?_ with },
    { (h.links.withMarks (v := t.failedValid) (c := c) hfmono).withCandidates (c := l)
        fun x hx => h.links.candidates x (hl x hx) with },?_,?_⟩,?_⟩
  · intro j hj hm
    rcases hmarks j hm with hold | ⟨hfj,-⟩
    · exact h.index.exists_invalid hj hold
    · exact ⟨g,ancestors_trans hgf hfj,hgv⟩
  · refine { h.active with unfailed := ?_ }
    intro a ha hap
    refine Bool.eq_false_iff.mpr fun hm => ?_
    rcases hmarks a hm with hold | ⟨hfa,-⟩
    · exact absurd hold (Bool.eq_false_iff.mp (h.active.unfailed a ha hap))
    · exact hft (ancestors_trans hfa ha)
  · rcases h.bound with hgen | ⟨r,hr⟩
    · exact .inl hgen
    · have hclean : ∀ x, t.Clean x → f ∉ x.ancestors := by
        intro x hx hfx
        have hfalse := hx g (ancestors_trans hgf hfx)
        rw [hgv] at hfalse
        contradiction
      exact .inr ⟨r,hstay r hr.mem (hclean r hr.clean),hr.clean,hr.connects,
        fun j hj hjl hjc hjr => hstay j (hr.complete j hj hjl hjc hjr) (hclean j hjc)⟩
  · exact
      { Explored.refl t with
        failed := hfmono
        marked := fun j hm => (hmarks j hm).imp_right fun hj =>
          h.links.ancestors i hi hil j hj.2
        candidates := hl }

/-- `FindMostWorkChain` ends with the best candidate whose path to the active chain is
free of failures. -/
theorem findMostWorkChain_ok (h : Searching env t tip) :
    ∃ m t', env.findMostWorkChain t = some (m,t') ∧ Searching env t' tip ∧ Explored env t t' ∧
      ((m = none ∧ t'.setBlockIndexCandidates = []) ∨
        ∃ mw ∈ t'.setBlockIndexCandidates, m = some mw ∧
          (∀ c ∈ t'.setBlockIndexCandidates, env.rank t' c ≤ env.rank t' mw) ∧
          ∀ a ∈ mw.ancestors, a ∉ tip.ancestors → t'.failed a = false) := by
  obtain ⟨n,hn⟩ : ∃ n, t.setBlockIndexCandidates.length = n := ⟨_,rfl⟩
  induction n using Nat.strong_induction_on generalizing t with
  | _ n ih =>
    unfold TreeEnv.findMostWorkChain
    split
    · rename_i hnone
      exact ⟨none,t,rfl,h,.refl t,.inl ⟨rfl,TreeEnv.lastOf_eq_none.mp hnone⟩⟩
    · rename_i mw hlast
      have hmem := env.mem_of_lastOf hlast
      obtain ⟨hmwm,hmwl⟩ := h.links.candidates mw hmem
      rcases findFailed_ok h.active.chain (h.links.allData mw hmwm hmwl)
          (h.links.ancestors mw hmwm hmwl) with ⟨hfind,hclean⟩ | ⟨f,hfm,hfind,hft,hff⟩
      · simp only [hfind]
        exact ⟨some mw,t,rfl,h,.refl t,.inr ⟨mw,hmem,rfl,TreeEnv.rank_le_of_lastOf hlast,hclean⟩⟩
      · simp only [hfind]
        obtain ⟨hs',hexp⟩ := (h.invalidChainFound mw).eraseFailed hmwm hmwl hfm hft hff
        have hlt : (BlockTree.eraseFailed f mw
            (t.invalidChainFound mw)).setBlockIndexCandidates.length < n := by
          rw [← hn]
          apply (TreeEnv.eraseFailed_candidates _ _ _).length_le.trans_lt
          exact List.length_filter_lt_length_iff_exists.mpr ⟨mw,hmem,by simp⟩
        obtain ⟨m,t',heq,hs'',hexp',hend⟩ := ih _ hlt hs' rfl
        exact ⟨m,t',heq,hs'',{ hexp.trans hexp' with },hend⟩

end Find

section Activate
variable {env : TreeEnv} {t t' : BlockTree} {tip : CBlockIndex}

/-- The number of entries that are not marked as failed. -/
def unfailed (t : BlockTree) : Nat := (t.mapBlockIndex.filter fun i => !t.failed i).length

theorem Explored.filter_unfailed (h : Explored env t t') :
    (t'.mapBlockIndex.filter fun i => !t'.failed i) =
      (t.mapBlockIndex.filter fun i => !t.failed i).filter fun i => !t'.failed i := by
  rw [h.index,List.filter_filter]
  refine List.filter_congr fun i _ => ?_
  cases hf : t.failed i with
  | true => rw [h.failed i hf]; rfl
  | false => simp

theorem Explored.unfailed_le (h : Explored env t t') : unfailed t' ≤ unfailed t := by
  unfold unfailed
  rw [h.filter_unfailed]
  exact List.length_filter_le _ _

theorem Explored.unfailed_lt (h : Explored env t t') {i : CBlockIndex}
    (hi : i ∈ t.mapBlockIndex) (hf : t.failed i = false) (hf' : t'.failed i = true) :
    unfailed t' < unfailed t := by
  unfold unfailed
  rw [h.filter_unfailed]
  refine List.length_filter_lt_length_iff_exists.mpr ⟨i,List.mem_filter.mpr ⟨hi,?_⟩,?_⟩
  · rw [hf]; rfl
  · rw [hf']; decide

/-- Genesis is never rejected by the search itself. -/
theorem Explored.genesis_invalid (h : Explored env t t')
    (hgen : t'.failedValid env.genesis = true) : t.failedValid env.genesis = true := by
  rcases h.rejected _ hgen with hold | ⟨hcon,-⟩
  · exact hold
  · simp [TreeEnv.connects,TreeEnv.genesis] at hcon

theorem Searching.target (h : Searching env t tip)
    (hguard : t.failedValid env.genesis = true → Increasing t) {mw : CBlockIndex}
    (hmw : mw ∈ t.setBlockIndexCandidates) : Target env t mw := by
  obtain ⟨hm,hl⟩ := h.links.candidates mw hmw
  exact ⟨hm,hl,fun hgen => ⟨hmw,fun a ha => (hguard hgen).rank_le h.index hm ha⟩⟩

/-- `ActivateBestChain` returns, with a tip that no candidate outranks. Each round of its
loop reaches the best candidate, gains work, or finds one more failed block. -/
theorem activateBestChain_ok (h : Searching env t tip)
    (hguard : t.failedValid env.genesis = true → Increasing t) :
    ∃ fuel t' tip', env.activateBestChain fuel t = some t' ∧ Searching env t' tip' ∧
      Explored env t t' ∧
      (∀ c ∈ t'.setBlockIndexCandidates, env.rank t' c ≤ env.rank t' tip') ∧
      (Increasing t → SoundFrom env t tip → SoundFrom env t' tip') := by
  obtain ⟨n,hn⟩ : ∃ n, unfailed t = n := ⟨_,rfl⟩
  obtain ⟨w,hw⟩ : ∃ w, 2^256-tip.nChainWork.toNat = w := ⟨_,rfl⟩
  induction n using Nat.strong_induction_on generalizing t tip w with
  | _ n ihn =>
    induction w using Nat.strong_induction_on generalizing t tip with
    | _ w ihw =>
      obtain ⟨m,t₁,hfind,hs₁,hexp₁,hcases⟩ := findMostWorkChain_ok h
      have hguard₁ : t₁.failedValid env.genesis = true → Increasing t₁ := fun hgen =>
        hexp₁.increasing (hguard (hexp₁.genesis_invalid hgen))
      have hsound₁ : SoundFrom env t tip → SoundFrom env t₁ tip := by
        intro hs c hc
        rw [hexp₁.rank_eq,hexp₁.rank_eq]
        exact hs c (hexp₁.candidates c hc)
      rcases hcases with ⟨rfl,hempty⟩ | ⟨mw,hmw,rfl,htop,hclean⟩
      · refine ⟨1,t₁,tip,?_,hs₁,hexp₁,?_,fun _ => hsound₁⟩
        · simp only [TreeEnv.activateBestChain,hfind]
        · rw [hempty]
          exact fun c hc => absurd hc List.not_mem_nil
      · by_cases hmt : mw = tip
        · subst hmt
          refine ⟨1,t₁,mw,?_,hs₁,hexp₁,htop,fun _ => hsound₁⟩
          simp only [TreeEnv.activateBestChain,hfind]
          rw [if_pos (by rw [hs₁.active.chain,CChain.pathTo_tip])]
        · obtain ⟨t₂,tip₂,hstep,hs₂,hexp₂,hsound₂,hprog⟩ :=
            activateBestChainStep_ok hs₁ (hs₁.target hguard₁ hmw) hclean
          have hexp := hexp₁.trans hexp₂
          have hsound : Increasing t → SoundFrom env t tip → SoundFrom env t₂ tip₂ :=
            fun hinc hs => hsound₂ (hexp₁.increasing hinc) (hsound₁ hs)
          have hround : ∀ fuel, env.activateBestChain (fuel+1) t =
              if some mw = some tip₂ then some t₂ else env.activateBestChain fuel t₂ := by
            intro fuel
            simp only [TreeEnv.activateBestChain,hfind]
            rw [if_neg (by rw [hs₁.active.chain,CChain.pathTo_tip]; simpa using hmt)]
            simp only [hstep]
            rw [hs₂.active.chain,CChain.pathTo_tip]
          by_cases hend : mw = tip₂
          · subst hend
            refine ⟨1,t₂,mw,?_,hs₂,hexp,fun c hc => ?_,hsound⟩
            · rw [hround 0,if_pos rfl]
            · rw [hexp₂.rank_eq,hexp₂.rank_eq]
              exact htop c (hexp₂.candidates c hc)
          · have hguard₂ : t₂.failedValid env.genesis = true → Increasing t₂ := fun hgen =>
              hexp₂.increasing (hguard₁ (hexp₂.genesis_invalid hgen))
            have hrec : ∃ fuel t' tip', env.activateBestChain fuel t₂ = some t' ∧
                Searching env t' tip' ∧ Explored env t₂ t' ∧
                (∀ c ∈ t'.setBlockIndexCandidates, env.rank t' c ≤ env.rank t' tip') ∧
                (Increasing t₂ → SoundFrom env t₂ tip₂ → SoundFrom env t' tip') := by
              have hle := hexp.unfailed_le
              rcases Nat.lt_or_ge (unfailed t₂) n with hlt | hge
              · exact ihn (unfailed t₂) hlt hs₂ hguard₂ rfl _ rfl
              · rcases hprog with heq | hwork | ⟨i,hi,hif,hif'⟩
                · exact absurd heq.symm hend
                · have hlt : tip.nChainWork.toNat < tip₂.nChainWork.toNat := hwork
                  have hbound := tip₂.nChainWork.isLt
                  exact ihw (2^256-tip₂.nChainWork.toNat) (by omega) hs₂ hguard₂ (by omega) rfl
                · have := hexp₂.unfailed_lt hi hif hif'
                  have := hexp₁.unfailed_le
                  omega
            obtain ⟨fuel,t',tip',heq,hs',hexp',htop',hsound'⟩ := hrec
            refine ⟨fuel+1,t',tip',?_,hs',hexp.trans hexp',htop',
              fun hinc hs => hsound' (hexp.increasing hinc) (hsound hinc hs)⟩
            rw [hround fuel,if_neg fun he => hend (Option.some.inj he)]
            exact heq

/-- More fuel changes nothing. -/
theorem activateBestChain_succ {fuel : Nat} (h : env.activateBestChain fuel t = some t') :
    env.activateBestChain (fuel+1) t = some t' := by
  induction fuel generalizing t with
  | zero => simp [TreeEnv.activateBestChain] at h
  | succ fuel ih =>
    unfold TreeEnv.activateBestChain at h ⊢
    split at h
    · contradiction
    · exact h
    · split at h
      · rename_i heq
        rw [if_pos heq]
        exact h
      · rename_i heq
        rw [if_neg heq]
        split at h
        · contradiction
        · split at h
          · rename_i heq'
            rw [if_pos heq']
            exact h
          · rename_i heq'
            rw [if_neg heq']
            exact ih h

theorem activateBestChain_mono {fuel fuel' : Nat} (hle : fuel ≤ fuel')
    (h : env.activateBestChain fuel t = some t') : env.activateBestChain fuel' t = some t' := by
  induction hle with
  | refl => exact h
  | step _ ih => exact activateBestChain_succ ih

end Activate

end Anoncoin
