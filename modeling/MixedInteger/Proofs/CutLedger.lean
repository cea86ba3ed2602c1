import MixedInteger.Proofs.NodeModels
import MixedInteger.Proofs.Sparse

/-!
# The books of the cuts

All nodes share one pool of cuts. A branched node may put cuts into it, and injects the last of them
into its own relaxation, before its children are made. So a cut is injected at most once, at the
node that it names.

* `CutPool.injections`: the injected cuts with the nodes that they name;
* `CutPool.Kept`, `Search.CutBooks`: the pool and the counters agree;
* `Search.CutRound`: what branching a node does to the pool and to its relaxation;
* `Search.advance_round`: only a branched node does something to the cuts;
* `Search.CutBooks.advance`, `Search.Visits.cutBooks`: the books along a run.
-/

namespace MixedInteger

open Scalar

/-! ## Cuts and the node that they name -/

section Generator

variable {R α : Type} [Scalar α] [Relaxation R α]

/-- The node whose relaxation the cut was read off. -/
def CutSource.node? : CutSource → Option NodeId
  | .gomory _ node => some node
  | .user => none

/-- The cut names the node, and its coefficients are in stored form. -/
structure Cut.MadeAt (cut : Cut α) (node : NodeId) : Prop where
  source : ∃ column, cut.source = .gomory column node
  stored : Sparse.normalize cut.coefficients.terms = cut.coefficients.terms

theorem Cut.MadeAt.node?_eq {cut : Cut α} {node : NodeId} (h : cut.MadeAt node) :
    cut.source.node? = some node := by
  obtain ⟨column, hsource⟩ := h.source
  rw [hsource]
  rfl

/-- A generator makes no cut, or counts the one that it makes. -/
theorem Gomory.generate_cases (g : Gomory α) (r : R) (column node : Nat) :
    ((g.generate r column node).1 = none ∧
      (g.generate r column node).2.counts.generated = g.counts.generated) ∨
    ∃ cut, (g.generate r column node).1 = some cut ∧ cut.MadeAt node ∧
      (g.generate r column node).2.counts.generated = g.counts.generated + 1 := by
  unfold generate
  split
  · exact .inl ⟨rfl, rfl⟩
  · dsimp only
    split
    · exact .inl ⟨rfl, rfl⟩
    · split
      · exact .inl ⟨rfl, rfl⟩
      · split
        · exact .inl ⟨rfl, rfl⟩
        · exact .inr ⟨_, rfl, ⟨⟨column, rfl⟩, Sparse.normalize_normalize _⟩, rfl⟩

/-- Every cut of a round names its node and is counted. -/
theorem Gomory.generateAll_made (g : Gomory α) (r : R) (node : NodeId) (js : List Nat) :
    (∀ cut ∈ (g.generateAll r node js).1, cut.MadeAt node) ∧
      (g.generateAll r node js).2.counts.generated
        = g.counts.generated + (g.generateAll r node js).1.length := by
  induction js generalizing g with
  | nil => exact ⟨nofun, rfl⟩
  | cons j js ih =>
    have hcases := generate_cases g r j node
    unfold generateAll
    generalize g.generate r j node = outcome at hcases ⊢
    obtain ⟨made, g₁⟩ := outcome
    obtain ⟨hrest, hcount⟩ := ih g₁
    rcases hcases with ⟨hnone, hsame⟩ | ⟨cut, hcut, hmade, hmore⟩
    · cases hnone
      exact ⟨hrest, hcount.trans (by rw [hsame])⟩
    · cases hcut
      have hmore : g₁.counts.generated = g.counts.generated + 1 := hmore
      refine ⟨List.forall_mem_cons.mpr ⟨hmade, hrest⟩, ?_⟩
      simp only [List.length_cons, hcount, hmore]
      omega

end Generator

/-! ## The pool -/

namespace CutPool

variable {α : Type}

/-- The injected cuts in the order of the pool, each with the node that it names. -/
def injections (p : CutPool α) : List (NodeId × Cut α) :=
  p.cuts.toList.filterMap fun c =>
    if 0 < c.timesInjected then c.cut.source.node?.map fun node => (node, c.cut) else none

/-- A cut enters the pool, and is injected so many times. -/
def enter (p : CutPool α) (cut : Cut α) (times : Nat) : CutPool α :=
  ⟨p.cuts.push ⟨cut, p.size, times⟩, p.totalAdded + 1, p.totalInjected + times⟩

theorem add_eq_enter (p : CutPool α) (cut : Cut α) : p.add cut = p.enter cut 0 := rfl

/-- Injecting the cut that has just been added. -/
theorem countInjection_add (p : CutPool α) (cut : Cut α) :
    (p.add cut).countInjection p.size = p.enter cut 1 := by
  have hmodify : (p.cuts.push ⟨cut, p.size, 0⟩).modify p.size
      (fun c => { c with timesInjected := c.timesInjected + 1 })
      = p.cuts.push ⟨cut, p.size, 1⟩ := by
    apply Array.ext_getElem?
    intro i
    simp only [Array.getElem?_modify, Array.getElem?_push]
    split
    · rename_i hi
      subst hi
      simp [size]
    · rename_i hi
      have hne : i ≠ p.cuts.size := fun h => hi h.symm
      simp [hne]
  unfold countInjection add enter
  rw [hmodify]

/-- The latest of the cuts since `start`, if there are any. -/
theorem mostRecent_eq (p : CutPool α) (start : Nat) :
    mostRecent p start p.size = if start < p.size then some (p.size - 1) else none := by
  simp [mostRecent]

theorem size_foldl_add (cuts : List (Cut α)) (p : CutPool α) :
    (cuts.foldl add p).size = p.size + cuts.length := by
  induction cuts generalizing p with
  | nil => rfl
  | cons cut rest ih =>
    rw [List.foldl_cons, ih, size_add, List.length_cons]
    omega

/-- Injecting the last cut of the pool into a relaxation. -/
theorem inject_add {R : Type} [Relaxation R α] {q : CutPool α} {cut : Cut α} {r r' : R}
    {row : Option Nat} {p : CutPool α}
    (h : (q.add cut).inject r (some q.size) = .ok (row, p, r')) :
    ∃ i, row = some i ∧ p = q.enter cut 1 ∧
      Relaxation.addRow r cut.coefficients cut.lowerBound = .ok (i, r') := by
  have hlast : (q.add cut).cuts[q.size]? = some ⟨cut, q.size, 0⟩ := by
    simp [add, size]
  unfold inject resolve? at h
  simp only [hlast] at h
  obtain ⟨⟨i, oracle⟩, hadd, hdone⟩ := exists_ok_of_bind h
  cases hdone
  exact ⟨i, rfl, countInjection_add q cut, hadd⟩

variable [Scalar α] {p : CutPool α} {cut : Cut α} {node : NodeId}

theorem injections_enter (hcut : cut.MadeAt node) (times : Nat) :
    (p.enter cut times).injections
      = p.injections ++ if 0 < times then [(node, cut)] else [] := by
  unfold injections enter
  rw [Array.toList_push, List.filterMap_append]
  by_cases htimes : 0 < times
  · simp [htimes, hcut.node?_eq]
  · simp [htimes]

/-- The cuts have their places as ids and were injected at most once each. They name nodes of the
list, and no two injected ones the same. -/
structure Kept (p : CutPool α) (nodes : List NodeId) : Prop where
  numbered : ∀ (i : Nat) (c : PooledCut α), p.cuts[i]? = some c → c.id = i
  added : p.totalAdded = p.size
  injected : p.totalInjected = (p.cuts.toList.map PooledCut.timesInjected).sum
  once : ∀ c ∈ p.cuts, c.timesInjected ≤ 1
  named : ∀ c ∈ p.cuts, ∃ node ∈ nodes, c.cut.MadeAt node
  apart : (p.injections.map Prod.fst).Nodup

theorem Kept.mono {nodes nodes' : List NodeId} (hp : p.Kept nodes) (hsub : nodes ⊆ nodes') :
    p.Kept nodes' :=
  { hp with
    named := fun c hc => by
      obtain ⟨node, hnode, hmade⟩ := hp.named c hc
      exact ⟨node, hsub hnode, hmade⟩ }

/-- Injected cuts name nodes of the list. -/
theorem Kept.mem_of_injection {nodes : List NodeId} (hp : p.Kept nodes)
    (h : node ∈ p.injections.map Prod.fst) : node ∈ nodes := by
  obtain ⟨⟨node', cut⟩, hmem, rfl⟩ := List.mem_map.mp h
  obtain ⟨c, hc, heq⟩ := List.mem_filterMap.mp hmem
  split at heq
  · obtain ⟨n, hn, hpair⟩ := Option.map_eq_some_iff.mp heq
    obtain ⟨node, hnode, hmade⟩ := hp.named c (Array.mem_toList_iff.mp hc)
    cases hpair
    cases hn.symm.trans hmade.node?_eq
    exact hnode
  · cases heq

theorem Kept.enter {nodes : List NodeId} (hp : p.Kept nodes) (hnode : node ∈ nodes)
    (hcut : cut.MadeAt node) {times : Nat}
    (htimes : times = 0 ∨ times = 1 ∧ node ∉ p.injections.map Prod.fst) :
    (p.enter cut times).Kept nodes := by
  constructor
  case numbered =>
    intro i c hc
    simp only [CutPool.enter, Array.getElem?_push] at hc
    split at hc
    · cases hc
      exact Eq.symm ‹_›
    · exact hp.numbered i c hc
  case added =>
    have hadded := hp.added
    simp only [CutPool.enter, size, Array.size_push] at hadded ⊢
    omega
  case injected =>
    simp [CutPool.enter, hp.injected]
  case once =>
    intro c hc
    rcases Array.mem_push.mp hc with hold | rfl
    · exact hp.once c hold
    · dsimp only
      omega
  case named =>
    intro c hc
    rcases Array.mem_push.mp hc with hold | rfl
    · exact hp.named c hold
    · exact ⟨node, hnode, hcut⟩
  case apart =>
    rw [injections_enter hcut, List.map_append]
    rcases htimes with rfl | ⟨rfl, hfree⟩
    · simpa using hp.apart
    · simp only [Nat.lt_one_iff, ↓reduceIte, List.map_cons, List.map_nil]
      exact List.nodup_append.mpr ⟨hp.apart, List.nodup_singleton _,
        fun a ha b hb hab => hfree (List.mem_singleton.mp hb ▸ hab ▸ ha)⟩

/-- Cuts that are added but not injected. -/
theorem Kept.foldl_add {nodes : List NodeId} (hp : p.Kept nodes) (hnode : node ∈ nodes)
    {cuts : List (Cut α)} (hcuts : ∀ cut ∈ cuts, cut.MadeAt node) :
    (cuts.foldl add p).Kept nodes ∧ (cuts.foldl add p).injections = p.injections ∧
      (cuts.foldl add p).totalInjected = p.totalInjected := by
  induction cuts generalizing p with
  | nil => exact ⟨hp, rfl, rfl⟩
  | cons cut rest ih =>
    obtain ⟨hcut, hrest⟩ := List.forall_mem_cons.mp hcuts
    rw [List.foldl_cons, add_eq_enter]
    obtain ⟨hkept, hinjections, htotal⟩ := ih (hp.enter hnode hcut (.inl rfl)) hrest
    refine ⟨hkept, ?_, htotal⟩
    rw [hinjections, injections_enter hcut]
    exact List.append_nil _

end CutPool

/-! ## Branching a node -/

variable {R α : Type} [Scalar α] [Relaxation R α]

namespace Search

/-- Nothing happens to the cuts and their counters. -/
structure SameCuts (s s' : Search R α) : Prop where
  cuts : s'.cuts = s.cuts
  generator : s'.generator.counts.generated = s.generator.counts.generated
  generated : s'.tally.cutsGenerated = s.tally.cutsGenerated
  injected : s'.tally.cutsInjected = s.tally.cutsInjected

omit [Scalar α] [Relaxation R α] in
theorem SameCuts.refl (s : Search R α) : s.SameCuts s := ⟨rfl, rfl, rfl, rfl⟩

omit [Scalar α] [Relaxation R α] in
theorem SameCuts.trans {s s₁ s' : Search R α} (h : s.SameCuts s₁) (h' : s₁.SameCuts s') :
    s.SameCuts s' :=
  ⟨h'.cuts.trans h.cuts, h'.generator.trans h.generator, h'.generated.trans h.generated,
    h'.injected.trans h.injected⟩

/-- Branching a node counts the cuts that are made at its relaxation `r`. If some of them are
admitted, the last one is injected, which makes `r'` of the relaxation. -/
inductive CutRound (s : Search R α) (node : NodeId) (r : R) (s' : Search R α) :
    Option (Cut α) → R → Prop where
  | idle (made : Nat) (cuts : s'.cuts = s.cuts)
      (generator : s'.generator.counts.generated = s.generator.counts.generated + made)
      (generated : s'.tally.cutsGenerated = s.tally.cutsGenerated + made)
      (injected : s'.tally.cutsInjected = s.tally.cutsInjected) : CutRound s node r s' none r
  | injects {made : Nat} {others : List (Cut α)} {cut : Cut α} {i : Nat} {r' : R}
      (others_made : ∀ other ∈ others, other.MadeAt node) (cut_made : cut.MadeAt node)
      (admitted : others.length + 1 ≤ made)
      (cuts : s'.cuts = (others.foldl CutPool.add s.cuts).enter cut 1)
      (generator : s'.generator.counts.generated = s.generator.counts.generated + made)
      (generated : s'.tally.cutsGenerated = s.tally.cutsGenerated + made)
      (injected : s'.tally.cutsInjected = s.tally.cutsInjected + 1)
      (added : Relaxation.addRow r cut.coefficients cut.lowerBound = .ok (i, r')) :
      CutRound s node r s' (some cut) r'

section Parts

variable {plan : Plan α} {s s₁ s' : Search R α} {node : Subproblem R α} {r r' : R}
  {notices : List (Notice α)}

/-- What leaves the cuts alone before and after a round of cuts belongs to it. -/
theorem CutRound.congr {s₀ : Search R α} {id : NodeId} {injected : Option (Cut α)}
    (hbefore : s₀.SameCuts s) (h : s.CutRound id r s₁ injected r') (hafter : s₁.SameCuts s') :
    s₀.CutRound id r s' injected r' := by
  cases h with
  | idle made cuts generator generated injected =>
    refine .idle made ?_ ?_ ?_ ?_
    · rw [hafter.cuts, cuts, hbefore.cuts]
    · rw [hafter.generator, generator, hbefore.generator]
    · rw [hafter.generated, generated, hbefore.generated]
    · rw [hafter.injected, injected, hbefore.injected]
  | injects others_made cut_made admitted cuts generator generated injected added =>
    refine .injects others_made cut_made admitted ?_ ?_ ?_ ?_ added
    · rw [hafter.cuts, cuts, hbefore.cuts]
    · rw [hafter.generator, generator, hbefore.generator]
    · rw [hafter.generated, generated, hbefore.generated]
    · rw [hafter.injected, injected, hbefore.injected]

theorem addCuts_round (hselect : plan.cutSelector = CutPool.mostRecent) {id : NodeId}
    (h : s.addCuts plan id r = .ok (s', r')) : ∃ injected, s.CutRound id r s' injected r' := by
  obtain ⟨hmade, hcount⟩ := s.generator.generateAll_made r id (integralColumns r)
  unfold addCuts at h
  simp only [hselect, CutPool.mostRecent_eq] at h
  generalize s.generator.generateAll r id (integralColumns r) = outcome at h hmade hcount
  obtain ⟨made, generator⟩ := outcome
  dsimp only at h hmade hcount
  generalize hadmitted : made.take (admittedCount plan.settings.cutFraction made.length)
    = admitted at h
  have hsub : ∀ cut ∈ admitted, cut.MadeAt id := fun cut hcut =>
    hmade cut (List.mem_of_mem_take (hadmitted ▸ hcut))
  have hlength : admitted.length ≤ made.length := by
    rw [← hadmitted, List.length_take]
    omega
  rcases List.eq_nil_or_concat' admitted with rfl | ⟨others, cut, rfl⟩
  · rw [List.foldl_nil, if_neg (Nat.lt_irrefl _)] at h
    cases h
    exact ⟨none, .idle _ rfl hcount rfl rfl⟩
  · obtain ⟨hothers, hcut⟩ := List.forall_mem_append.mp hsub
    rw [List.length_append, List.length_singleton] at hlength
    have hsize := CutPool.size_foldl_add others s.cuts
    rw [List.foldl_append, List.foldl_cons, List.foldl_nil, CutPool.size_add,
      if_pos (by omega), Nat.add_sub_cancel] at h
    obtain ⟨⟨row, cuts, oracle⟩, hinject, hdone⟩ := exists_ok_of_bind h
    obtain ⟨i, rfl, rfl, hadd⟩ := CutPool.inject_add hinject
    cases hdone
    exact ⟨cut, .injects hothers (hcut cut List.mem_cons_self) hlength rfl hcount rfl rfl hadd⟩

theorem addChild_sameCuts {parent id : NodeId} {depth : Nat} {change : BoundChange α}
    (h : s.addChild parent depth r id change = (notices, .ok s')) : s.SameCuts s' := by
  obtain ⟨moved, tree, bound, -, -, -, rfl⟩ := addChild_parts h
  exact ⟨rfl, rfl, rfl, rfl⟩

theorem addChildren_sameCuts {pick : Violation α}
    (h : s.addChildren node r pick = (notices, .ok s')) : s.SameCuts s' := by
  obtain ⟨s₁, told, more, hfirst, hsecond, -⟩ := addChildren_parts h
  have hids : s.SameCuts { s with ids := ⟨s.ids.nextEven + 2⟩ } := ⟨rfl, rfl, rfl, rfl⟩
  exact hids.trans ((addChild_sameCuts hfirst).trans (addChild_sameCuts hsecond))

/-- The children of a branched node narrow its relaxation after its round of cuts. -/
theorem branch_round (hselect : plan.cutSelector = CutPool.mostRecent) {bound : α}
    {vs : List (Violation α)} (h : s.branch plan node r bound vs = (notices, .ok s')) :
    ∃ (injected : Option (Cut α)) (r₁ : R) (down up : BoundChange α)
      (first second : Subproblem R α),
      s.CutRound node.id r s' injected r₁ ∧ first.Narrows r₁ down ∧ second.Narrows r₁ up ∧
      s'.pool.waiting.toList = s.pool.waiting.toList ++ [first, second] := by
  obtain ⟨pick, s₁, r₁, fractions, more, -, htight, hadd, -⟩ := branch_parts h
  have hround : (∃ injected, s.CutRound node.id r s₁ injected r₁) ∧ s₁.pool = s.pool := by
    rcases htight with ⟨-, hcuts⟩ | ⟨rfl, rfl⟩
    · exact ⟨addCuts_round hselect hcuts, (addCuts_sameBooks hcuts).pool⟩
    · exact ⟨⟨none, .idle 0 rfl rfl rfl rfl⟩, rfl⟩
  obtain ⟨⟨injected, hround⟩, hpool⟩ := hround
  obtain ⟨first, second, hdown, hup, hpool', -⟩ := addChildren_narrows hadd
  rw [hpool] at hpool'
  exact ⟨injected, r₁, _, _, first, second, hround.congr (.refl s) (addChildren_sameCuts hadd),
    hdown, hup, hpool'⟩

theorem offer_sameCuts (s : Search R α) (id : NodeId) (r : R) (bound : α) :
    s.SameCuts (s.offer id r bound).2 := by
  unfold offer
  split <;> exact ⟨rfl, rfl, rfl, rfl⟩

/-- Only a branched node does something to the cuts. -/
theorem process_round (hselect : plan.cutSelector = CutPool.mostRecent) {d : Disposal R α}
    (h : s.process plan node = (notices, .ok d)) :
    (d.fate ≠ .branched ∧ s.SameCuts d.search ∧
      d.search.pool.waiting.toList = s.pool.waiting.toList ++ []) ∨
    (d.fate = .branched ∧
      ∃ (injected : Option (Cut α)) (r₁ : R) (down up : BoundChange α)
        (first second : Subproblem R α),
      s.CutRound node.id (Relaxation.solve node.model).2 d.search injected r₁ ∧
      first.Narrows r₁ down ∧ second.Narrows r₁ up ∧
      d.search.pool.waiting.toList = s.pool.waiting.toList ++ [first, second]) := by
  unfold process at h
  dsimp only at h
  split at h
  · cases h
    exact .inl ⟨nofun, .refl s, (List.append_nil _).symm⟩
  · cases h
    refine .inl ⟨nofun, offer_sameCuts s _ _ _, ?_⟩
    rw [(offer_sameBooks s _ _ _).pool, List.append_nil]
  · split at h
    · cases h
      exact .inl ⟨nofun, .refl s, (List.append_nil _).symm⟩
    · obtain ⟨s', hs', rfl⟩ := exists_ok_of_map (congrArg Prod.snd h)
      exact .inr ⟨rfl, branch_round hselect (Prod.ext rfl hs')⟩

omit [Scalar α] [Relaxation R α] in
theorem conclude_sameCuts {d : Disposal R α} {id : NodeId} (h : conclude d id = .ok s') :
    d.search.SameCuts s' := by
  obtain ⟨tree, -, rfl⟩ := conclude_eq_ok h
  cases hfate : d.fate <;> exact ⟨rfl, rfl, rfl, rfl⟩

/-- An iteration does nothing to the cuts, or it branches a node and has its round of cuts. -/
theorem advance_round (hselect : plan.cutSelector = CutPool.mostRecent)
    {p : Progress R α} (hwaits : s.pool.isEmpty = false)
    (h : s.advance plan = (notices, .ok p)) :
    (∃ node fate, fate ≠ .branched ∧ s.Iterates node fate [] p.search ∧ s.SameCuts p.search) ∨
    ∃ (node : Subproblem R α) (injected : Option (Cut α)) (r₁ : R) (down up : BoundChange α)
      (first second : Subproblem R α),
      s.Iterates node .branched [first, second] p.search ∧
      s.CutRound node.id (Relaxation.solve node.model).2 p.search injected r₁ ∧
      first.Narrows r₁ down ∧ second.Narrows r₁ up := by
  obtain ⟨node, k, pool, told, d, htake, hprocess, hconclude, -⟩ := advance_parts hwaits h
  have hbefore : s.SameCuts { s with
      pool := pool, tally := { s.tally with iterations := s.tally.iterations + 1 } } :=
    ⟨rfl, rfl, rfl, rfl⟩
  have hafter := conclude_sameCuts hconclude
  rcases process_round hselect hprocess with
    ⟨hfate, hsame, hpool⟩ | ⟨hfate, injected, r₁, _, _, first, second, hround, hdown, hup, hpool⟩
  · exact .inl ⟨node, d.fate, hfate, iterates_of_process htake hprocess hpool hconclude,
      hbefore.trans (hsame.trans hafter)⟩
  · have hstep := iterates_of_process htake hprocess hpool hconclude
    rw [hfate] at hstep
    exact .inr ⟨node, injected, r₁, _, _, first, second, hstep, hround.congr hbefore hafter, hdown,
      hup⟩

end Parts

/-! ## The books along a run -/

/-- The pool agrees with the counters of the search. Every cut names a branched node, and no more
cuts were injected than nodes were branched. -/
structure CutBooks (s : Search R α) : Prop where
  kept : s.cuts.Kept s.branchedIds
  admitted : s.cuts.size ≤ s.tally.cutsGenerated
  generated : s.tally.cutsGenerated = s.generator.counts.generated
  injected : s.tally.cutsInjected = s.cuts.totalInjected
  spent : s.cuts.totalInjected ≤ s.tally.branched

/-- An iteration takes the node, and injects at most one cut, at that node and only if it is
branched. -/
structure InjectsHere (s : Search R α) (node : NodeId) (fate : Fate) (s' : Search R α) : Prop where
  trace : s'.trace = s.trace.push (node, fate)
  injections : ∃ injected : Option (Cut α), (injected.isSome = true → fate = .branched) ∧
    s'.cuts.injections = s.cuts.injections ++ injected.toList.map fun cut => (node, cut)

section Steps

variable {plan : Plan α} {s s' : Search R α} {node : Subproblem R α} {r r' : R}

omit [Relaxation R α] in
theorem cutBooks_initial {settings : Settings α} {root : R} :
    (initial settings root).CutBooks := by
  refine ⟨⟨?_, rfl, rfl, ?_, ?_, List.nodup_nil⟩, Nat.le_refl 0, rfl, rfl, Nat.le_refl 0⟩
  · intro i c hc
    simp [initial, CutPool.empty] at hc
  · intro c hc
    simp [initial, CutPool.empty] at hc
  · intro c hc
    simp [initial, CutPool.empty] at hc

omit [Relaxation R α] in
/-- Nothing is injected before its node is branched. -/
theorem CutBooks.not_injected (hs : s.CutBooks) {id : NodeId} (hid : id ∉ s.branchedIds) :
    id ∉ s.cuts.injections.map Prod.fst :=
  fun h => hid (hs.kept.mem_of_injection h)

omit [Relaxation R α] in
theorem CutBooks.pruned (hs : s.CutBooks) {fate : Fate} (hfate : fate ≠ .branched)
    (hstep : s.Iterates node fate [] s') (hsame : s.SameCuts s') : s'.CutBooks := by
  obtain ⟨hcuts, hgenerator, hgenerated, hinjected⟩ := hsame
  have hbranched := hstep.counters.2.2.1
  rw [if_neg hfate] at hbranched
  constructor
  case kept =>
    rw [hcuts, hstep.branchedIds, if_neg hfate, List.append_nil]
    exact hs.kept
  case admitted =>
    rw [hcuts, hgenerated]
    exact hs.admitted
  case generated => rw [hgenerated, hgenerator, hs.generated]
  case injected => rw [hinjected, hcuts, hs.injected]
  case spent =>
    rw [hcuts, hbranched]
    exact hs.spent

/-- A round of cuts injects at most one cut, at its node. -/
theorem CutRound.injections {nodes : List NodeId} {id : NodeId} {injected : Option (Cut α)}
    (hround : s.CutRound id r s' injected r') (hkept : s.cuts.Kept nodes) (hid : id ∈ nodes) :
    s'.cuts.injections = s.cuts.injections ++ injected.toList.map fun cut => (id, cut) := by
  cases hround with
  | idle made cuts generator generated injected => rw [cuts, Option.toList_none, List.map_nil,
      List.append_nil]
  | injects others_made cut_made admitted cuts generator generated injected added =>
    rw [cuts, CutPool.injections_enter cut_made, (hkept.foldl_add hid others_made).2.1]
    rfl

/-- A round of cuts keeps the books. -/
theorem CutBooks.branched (hs : s.CutBooks) (hnode : node.id ∉ s.branchedIds)
    {children : List (Subproblem R α)} (hstep : s.Iterates node .branched children s')
    {injected : Option (Cut α)} (hround : s.CutRound node.id r s' injected r') :
    s'.CutBooks := by
  have hids : s'.branchedIds = s.branchedIds ++ [node.id] := by
    rw [hstep.branchedIds, if_pos rfl]
  have hbranched : s'.tally.branched = s.tally.branched + 1 := hstep.counters.2.2.1
  have hgrown : s.cuts.Kept s'.branchedIds :=
    hs.kept.mono (hids ▸ List.subset_append_left _ _)
  have hmem : node.id ∈ s'.branchedIds := by
    rw [hids]
    exact List.mem_append_right _ List.mem_cons_self
  have hfree := hs.not_injected hnode
  obtain ⟨-, hadmitted, hgenerated, hinjected, hspent⟩ := hs
  cases hround with
  | idle made cuts generator generated injected =>
    refine ⟨cuts ▸ hgrown, ?_, ?_, ?_, ?_⟩
    · rw [cuts]
      omega
    · omega
    · rw [cuts]
      omega
    · rw [cuts]
      omega
  | @injects made others cut i r' others_made cut_made admitted cuts generator generated injected
      added =>
    obtain ⟨hkept, hinjections, htotal⟩ := hgrown.foldl_add hmem others_made
    have hsize := CutPool.size_foldl_add others s.cuts
    have hsize' : s'.cuts.size = s.cuts.size + others.length + 1 := by
      rw [cuts, ← hsize]
      exact Array.size_push _
    have htotal' : s'.cuts.totalInjected = s.cuts.totalInjected + 1 := by
      rw [cuts, ← htotal]
      rfl
    refine ⟨?_, ?_, ?_, ?_, ?_⟩
    · rw [cuts]
      exact hkept.enter hmem cut_made (.inr ⟨rfl, by rwa [hinjections]⟩)
    all_goals omega

/-- The node of an iteration has not been branched before. -/
theorem Ledger.not_branched {picks : List (Violation α)} (hs : s.Ledger picks) {fate : Fate}
    {children : List (Subproblem R α)} (hstep : s.Iterates node fate children s') :
    node.id ∉ s.branchedIds :=
  fun h => (hs.filed.isOpen hstep).2 (branchedIds_subset h)

theorem CutBooks.advance (hselect : plan.cutSelector = CutPool.mostRecent) (hs : s.CutBooks)
    {picks : List (Violation α)} (hledger : s.Ledger picks) (hwaits : s.pool.isEmpty = false)
    {notices : List (Notice α)} {p : Progress R α} (h : s.advance plan = (notices, .ok p)) :
    p.search.CutBooks ∧ ∃ node fate, s.InjectsHere node fate p.search := by
  rcases advance_round hselect hwaits h with ⟨node, fate, hfate, hstep, hsame⟩ |
    ⟨node, injected, r₁, -, -, first, second, hstep, hround, -, -⟩
  · refine ⟨hs.pruned hfate hstep hsame, node.id, fate, hstep.trace, none, nofun, ?_⟩
    rw [hsame.cuts, Option.toList_none, List.map_nil, List.append_nil]
  · have hbooks := hs.branched (hledger.not_branched hstep) hstep hround
    have hmem : node.id ∈ s.branchedIds ++ [node.id] :=
      List.mem_append_right _ List.mem_cons_self
    exact ⟨hbooks, node.id, .branched, hstep.trace, injected, fun _ => rfl,
      hround.injections (hs.kept.mono (List.subset_append_left _ _)) hmem⟩

theorem Visits.cutBooks (hselect : plan.cutSelector = CutPool.mostRecent) {root : R}
    {picks : List (Violation α)} (h : Visits plan root picks s) : s.CutBooks := by
  induction h with
  | start => exact cutBooks_initial
  | next hvisited hwaits hadvance ih =>
    exact (ih.advance hselect hvisited.ledger hwaits hadvance).1

end Steps

end Search

end MixedInteger
