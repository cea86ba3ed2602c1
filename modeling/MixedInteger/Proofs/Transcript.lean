import MixedInteger.Proofs.Observers
import MixedInteger.Proofs.Rendezvous

/-!
# The transcript of a run

A search says of every node it takes that its relaxation has been solved, then what became of it,
and of a branched node which children it has got. What an observer has been told at the end of a run
can be read off the trace and the tree of its solution.

* `Headline`: an event without its time and its numbers;
* `SearchTree.story`: the headlines about a node in the trace;
* `Search.told`, `Search.stream`: what a search says in its first iterations, and its events;
* `Search.Narrated`: the headlines so far agree with the trace and the tree;
* `Search.Narrated.advance`: an iteration keeps that;
* `Session.explore_stream`: a loop gives its telemetry the events of its iterations;
* `run_transcript`: what an observer is told of a run.
-/

namespace MixedInteger

/-- What an event says, without its time and its numbers. -/
structure Headline where
  node : NodeId
  parent : Option NodeId
  tag : String
  deriving DecidableEq

section Headlines

variable {α : Type}

def Event.headline (e : Event α) : Headline := ⟨e.node, e.parent, e.kind.tag⟩

/-- None for a line of the log. -/
def Notice.headline? : Notice α → Option Headline
  | .event node parent kind => some ⟨node, parent, kind.tag⟩
  | .log _ => none

/-- The events among the notices, each at the time at which it is the next one, after `sent` others
have been sent. -/
def Event.ofNotices (clock : Nat → Nat) (sent : Nat) : List (Notice α) → List (Event α)
  | [] => []
  | .log _ :: rest => ofNotices clock sent rest
  | .event node parent kind :: rest =>
    Event.new (clock sent) node parent kind :: ofNotices clock (sent + 1) rest

theorem Event.ofNotices_append (clock : Nat → Nat) (sent : Nat) (notices more : List (Notice α)) :
    ofNotices clock sent (notices ++ more) = ofNotices clock sent notices
      ++ ofNotices clock (sent + (ofNotices clock sent notices).length) more := by
  induction notices generalizing sent with
  | nil => rfl
  | cons notice rest ih =>
    cases notice with
    | log record => exact ih sent
    | event node parent kind =>
      simp only [List.cons_append, ofNotices, List.length_cons, ih]
      rw [Nat.add_assoc, Nat.add_comm 1]

theorem Event.headline_ofNotices (clock : Nat → Nat) (sent : Nat) (notices : List (Notice α)) :
    (ofNotices clock sent notices).map headline = notices.filterMap Notice.headline? := by
  induction notices generalizing sent with
  | nil => rfl
  | cons notice rest ih =>
    cases notice with
    | log record => exact ih sent
    | event node parent kind =>
      simp only [ofNotices, List.map_cons, ih, List.filterMap_cons, Notice.headline?]
      rfl

theorem Event.direction_ofNotices {clock : Nat → Nat} {sent : Nat} {notices : List (Notice α)}
    {e : Event α} (h : e ∈ ofNotices clock sent notices) : e.direction = .ofNode e.node := by
  induction notices generalizing sent with
  | nil => cases h
  | cons notice rest ih =>
    cases notice with
    | log record => exact ih h
    | event node parent kind =>
      rcases List.mem_cons.mp h with rfl | hrest
      · rfl
      · exact ih hrest

end Headlines

/-! ## What is told of a node -/

/-- How the event is called that tells the fate of a node. -/
def Fate.tag : Fate → String
  | .prunedIntegral => "integral"
  | .prunedInfeasible => "infeasible"
  | .prunedByBound => "fathomed"
  | .branched => "branched"

/-- The children of a node, in order of creation. -/
def SearchTree.childrenOf (t : SearchTree) (id : NodeId) : List NodeId :=
  ((t.get? id).map TreeNode.children).getD []

/-- The headlines about a node with its fate: it has been solved, what became of it, and of a
branched node its children. -/
def SearchTree.story (t : SearchTree) (entry : NodeId × Fate) : List Headline :=
  [⟨entry.1, t.parent? entry.1, "pregnant"⟩, ⟨entry.1, t.parent? entry.1, entry.2.tag⟩] ++
    if entry.2 = .branched then
      (t.childrenOf entry.1).map fun child => ⟨child, some entry.1, "candidate"⟩
    else []

namespace SearchTree

variable {t : SearchTree} {id : NodeId} {n : TreeNode} {entry : NodeId × Fate} {line : Headline}

theorem childrenOf_eq (h : t.get? id = some n) : t.childrenOf id = n.children := by
  simp [childrenOf, h]

/-- The story of a node is read off its record. -/
theorem story_congr {t' : SearchTree} (h : t'.get? entry.1 = t.get? entry.1) :
    t'.story entry = t.story entry := by
  unfold story childrenOf parent?
  rw [h]

/-- A node is reported as solved once, before all else. -/
theorem story_later (h : line ∈ (t.story entry).tail) : line.tag ≠ "pregnant" := by
  obtain ⟨id, fate⟩ := entry
  cases fate with
  | branched =>
    simp only [story, ↓reduceIte, List.cons_append, List.nil_append, List.tail_cons,
      List.mem_cons, List.mem_map] at h
    rcases h with rfl | ⟨child, -, rfl⟩
    · simp [Fate.tag]
    · simp
  | prunedIntegral | prunedInfeasible | prunedByBound =>
    obtain rfl := List.mem_singleton.mp h
    simp [Fate.tag]

/-- A line in the story of a node is about the node, or about one of its children if it is
branched. -/
theorem mem_story {id : NodeId} {fate : Fate} (h : line ∈ t.story (id, fate)) :
    (line.node = id ∧ line.parent = t.parent? id) ∨
      (line.node ∈ t.childrenOf id ∧ line.parent = some id) := by
  rw [story, List.mem_append, List.mem_pair] at h
  rcases h with (rfl | rfl) | hchild
  · exact .inl ⟨rfl, rfl⟩
  · exact .inl ⟨rfl, rfl⟩
  · dsimp only at hchild
    split at hchild
    · obtain ⟨child, hmem, rfl⟩ := List.mem_map.mp hchild
      exact .inr ⟨hmem, rfl⟩
    · cases hchild

/-- The candidates in the story of a node are its children if it is branched. -/
theorem story_candidates (t : SearchTree) (id : NodeId) (fate : Fate) :
    ((t.story (id, fate)).filter fun line => line.tag = "candidate").map Headline.node
      = if fate = .branched then t.childrenOf id else [] := by
  cases fate with
  | branched =>
    simp [story, Fate.tag, List.filter_map, Function.comp_def]
  | prunedIntegral | prunedInfeasible | prunedByBound => simp [story, Fate.tag]

end SearchTree

variable {R α : Type} [Scalar α] [Relaxation R α]

namespace Search

section Iteration

variable {plan : Plan α} {s s' : Search R α} {node : Subproblem R α} {r : R}
  {notices : List (Notice α)}

theorem addChildren_headlines {pick : Violation α}
    (h : s.addChildren node r pick = (notices, .ok s')) :
    notices.filterMap Notice.headline? =
      [⟨s.ids.nextEven, some node.id, "candidate"⟩,
        ⟨s.ids.nextEven + 1, some node.id, "candidate"⟩] := by
  obtain ⟨s₁, first, second, hfirst, hsecond, rfl⟩ := addChildren_parts h
  obtain ⟨moved, tree, bound, -, -, rfl, -⟩ := addChild_parts hfirst
  obtain ⟨moved', tree', bound', -, -, rfl, -⟩ := addChild_parts hsecond
  rfl

theorem branch_headlines {bound : α} {vs : List (Violation α)}
    (h : s.branch plan node r bound vs = (notices, .ok s')) :
    notices.filterMap Notice.headline? =
      [⟨node.id, node.parent, "branched"⟩, ⟨s.ids.nextEven, some node.id, "candidate"⟩,
        ⟨s.ids.nextEven + 1, some node.id, "candidate"⟩] := by
  obtain ⟨pick, s₁, r₁, fractions, more, -, htight, hadd, rfl⟩ := branch_parts h
  have hids : s₁.ids = s.ids := by
    rcases htight with ⟨-, hcuts⟩ | ⟨rfl, -⟩
    · exact (addCuts_sameBooks hcuts).ids
    · rfl
  rw [List.filterMap_cons, addChildren_headlines hadd, hids]
  rfl

/-- A node that is processed is reported as solved, then with its fate, then with its children. -/
theorem process_headlines {d : Disposal R α} (h : s.process plan node = (notices, .ok d)) :
    notices.filterMap Notice.headline? =
      [⟨node.id, node.parent, "pregnant"⟩, ⟨node.id, node.parent, d.fate.tag⟩] ++
        if d.fate = .branched then [⟨s.ids.nextEven, some node.id, "candidate"⟩,
          ⟨s.ids.nextEven + 1, some node.id, "candidate"⟩]
        else [] := by
  unfold process at h
  dsimp only at h
  split at h
  · cases h
    cases node.isRoot <;> rfl
  · cases h
    have hoffer : (s.offer node.id (Relaxation.solve node.model).2 (Relaxation.objectiveValue
        (Relaxation.solve node.model).2)).1.filterMap Notice.headline? = [] := by
      unfold offer
      split <;> rfl
    rw [List.filterMap_cons, List.filterMap_cons, hoffer]
    rfl
  · split at h
    · cases h
      rfl
    · generalize hbranch : s.branch plan node _ _ _ = outcome at h
      obtain ⟨told, result⟩ := outcome
      obtain ⟨s₁, rfl, hd⟩ := exists_ok_of_map (congrArg Prod.snd h)
      cases congrArg Prod.fst h
      subst hd
      rw [List.filterMap_cons, branch_headlines hbranch]
      rfl

omit [Relaxation R α] in
theorem progress_headlines (plan : Plan α) (s : Search R α) :
    (s.progress plan).filterMap Notice.headline? = [] := by
  unfold progress
  dsimp only
  split <;> rfl

end Iteration

/-! ## What is told of a search -/

section Books

variable {s : Search R α} {picks : List (Violation α)}

/-- What an iteration tells is the story of the node that it takes, as the tree has it
afterwards. -/
theorem Ledger.advance_story {plan : Plan α} {notices : List (Notice α)} {p : Progress R α}
    (hs : s.Ledger picks) (hwaits : s.pool.isEmpty = false)
    (h : s.advance plan = (notices, .ok p)) :
    ∃ node fate children, s.Iterates node fate children p.search ∧
      p.search.tree.parent? node.id = node.parent ∧
      p.search.tree.childrenOf node.id = children.map Subproblem.id ∧
      children.map Subproblem.id = (if fate = .branched
        then [2 * (s.tally.branched + 1), 2 * (s.tally.branched + 1) + 1] else []) ∧
      notices.filterMap Notice.headline? = p.search.tree.story (node.id, fate) := by
  obtain ⟨node, k, pool, told, d, htake, hprocess, hconclude, rfl⟩ := advance_parts hwaits h
  have hstep : ∃ children, s.Iterates node d.fate children p.search ∧
      children.map Subproblem.id
        = if d.fate = .branched then [s.ids.nextEven, s.ids.nextEven + 1] else [] := by
    rcases process_cases hprocess with ⟨hfate, -, hsame⟩ | ⟨hfate, pick, -, hsplit⟩
    · exact ⟨[], hsame.iterates htake hconclude, by rw [if_neg hfate]; rfl⟩
    · obtain ⟨first, second, hfirst, hsecond, hiterates⟩ := hsplit.iterates htake hfate hconclude
      refine ⟨[first, second], hfate ▸ hiterates, ?_⟩
      rw [if_pos hfate, List.map_cons, List.map_singleton, hfirst.id, hsecond.id]
  obtain ⟨children, hstep, hids⟩ := hstep
  obtain ⟨n, hn, hn', -⟩ := (hstep.tree hs.filed.indexed).parent
  obtain ⟨n', hrecord, hparent, -⟩ := hs.family.records node hstep.node_pooled
  cases hn.symm.trans hrecord
  have hfree : node.id ∉ s.branchedIds := fun hmem =>
    (hs.filed.isOpen hstep).2 (branchedIds_subset hmem)
  have hparent' : p.search.tree.parent? node.id = node.parent :=
    (SearchTree.parent?_eq hn').trans hparent
  have hchildren : p.search.tree.childrenOf node.id = children.map Subproblem.id := by
    rw [SearchTree.childrenOf_eq hn', hs.family.childless node.id n hn hfree]
    rfl
  refine ⟨node, d.fate, children, hstep, hparent', hchildren, ?_, ?_⟩
  · rw [hids, hs.counts.nextEven.2]
  · rw [List.filterMap_append, progress_headlines, List.append_nil, process_headlines hprocess,
      SearchTree.story, hparent', hchildren, hids]
    dsimp only
    split <;> rfl

end Books

/-- The headlines so far are the stories of the nodes taken, in order. Each is about a node with a
record and names its parent. The candidates among them are all nodes but the root, in the order of
their ids, and none of these is reported as solved before it was one. -/
structure Narrated (s : Search R α) (lines : List Headline) : Prop where
  told : lines = s.trace.toList.flatMap s.tree.story
  known : ∀ line ∈ lines, s.tree.contains line.node = true
  parents : ∀ line ∈ lines, line.parent = s.tree.parent? line.node
  candidates : (lines.filter fun line => line.tag = "candidate").map Headline.node
    = List.range' 2 (2 * s.tally.branched)
  announced : ∀ k line, lines[k]? = some line → line.tag = "pregnant" → line.node ≠ 1 →
    ∃ candidate ∈ lines.take k, candidate.tag = "candidate" ∧ candidate.node = line.node

omit [Relaxation R α] in
theorem narrated_initial (settings : Settings α) (root : R) :
    (initial settings root).Narrated [] := by
  constructor
  case told => rfl
  case candidates => rfl
  all_goals simp

section Steps

variable {s s' : Search R α} {picks : List (Violation α)} {lines : List Headline}
  {node : Subproblem R α} {fate : Fate} {children : List (Subproblem R α)}

/-- A node that waits has been announced, if it is not the root. -/
theorem Narrated.exists_candidate (hn : s.Narrated lines) (hs : s.Ledger picks)
    (hnode : node ∈ s.pool.waiting) (hroot : node.id ≠ 1) :
    ∃ candidate ∈ lines, candidate.tag = "candidate" ∧ candidate.node = node.id := by
  have hknown := (hs.filed.known node.id).mp ((hs.filed.pooled node.id).mp (mem_ids hnode)).1
  rw [hs.counts.issued] at hknown
  have hmem : node.id ∈ (lines.filter fun line => line.tag = "candidate").map Headline.node := by
    rw [hn.candidates, List.mem_range'_1]
    have hlt := Nat.lt_of_le_of_ne hknown.1 (Ne.symm hroot)
    omega
  obtain ⟨candidate, hcandidate, hid⟩ := List.mem_map.mp hmem
  obtain ⟨hcandidate, htag⟩ := List.mem_filter.mp hcandidate
  exact ⟨candidate, hcandidate, of_decide_eq_true htag, hid⟩

/-- An iteration adds the story of the node that it takes. -/
theorem Narrated.advance {plan : Plan α} {notices : List (Notice α)} {p : Progress R α}
    (hn : s.Narrated lines) (hs : s.Ledger picks) (hwaits : s.pool.isEmpty = false)
    (h : s.advance plan = (notices, .ok p)) :
    p.search.Narrated (lines ++ notices.filterMap Notice.headline?) := by
  obtain ⟨node, fate, children, hstep, hparent, hchildren, hids, hstory⟩ :=
    hs.advance_story hwaits h
  have hgrows := hstep.tree hs.filed.indexed
  have hcontains (k : NodeId) := hgrows.contains_iff hs.filed.indexed (k := k)
  rw [hstory]
  constructor
  case told =>
    rw [hstep.trace, Array.toList_push, List.flatMap_append, List.flatMap_singleton, hn.told]
    congr 1
    apply List.flatMap_congr
    intro entry hentry
    exact (SearchTree.story_congr (hs.filed.get?_taken hstep (List.mem_map_of_mem hentry))).symm
  case known =>
    intro line hline
    rw [hcontains]
    rcases List.mem_append.mp hline with hold | hnew
    · exact .inl (hn.known line hold)
    · rcases SearchTree.mem_story hnew with ⟨hnode, -⟩ | ⟨hchild, -⟩
      · rw [hnode]
        exact .inl (hs.filed.isOpen hstep).1
      · rw [hchildren] at hchild
        exact .inr hchild
  case parents =>
    intro line hline
    rcases List.mem_append.mp hline with hold | hnew
    · rw [hs.filed.parent?_iterates hstep (hn.known line hold)]
      exact hn.parents line hold
    · rcases SearchTree.mem_story hnew with ⟨hnode, hline⟩ | ⟨hchild, hline⟩
      · rw [hline, hnode]
      · rw [hchildren] at hchild
        obtain ⟨n, -, -, hrecords⟩ := hgrows.parent
        rw [hline, SearchTree.parent?_eq (hrecords _ hchild)]
  case candidates =>
    rw [List.filter_append, List.map_append, hn.candidates, SearchTree.story_candidates, hchildren,
      hids, hstep.counters.2.2.1]
    by_cases hfate : fate = .branched
    · -- The next two ids follow those of the candidates so far.
      rw [if_pos hfate, if_pos hfate, if_pos hfate, Nat.mul_add 2 s.tally.branched 1,
        ← List.range'_append_1, Nat.add_comm 2 (2 * s.tally.branched)]
      rfl
    · rw [if_neg hfate, if_neg hfate, List.append_nil, Nat.add_zero]
  case announced =>
    intro k line hk hsolved hroot
    rw [List.getElem?_append] at hk
    split at hk
    · rename_i hlt
      obtain ⟨candidate, hmem, hcandidate⟩ := hn.announced k line hk hsolved hroot
      rw [List.take_append_of_le_length (Nat.le_of_lt hlt)]
      exact ⟨candidate, hmem, hcandidate⟩
    · -- In the story only the first line reports a node as solved, and that is the one taken.
      rename_i hge
      obtain ⟨i, rfl⟩ : ∃ i, k = lines.length + i := Nat.exists_eq_add_of_le (Nat.le_of_not_lt hge)
      rw [Nat.add_sub_cancel_left] at hk
      cases i with
      | zero =>
        cases hk
        rw [Nat.add_zero, List.take_left]
        exact hn.exists_candidate hs hstep.node_pooled hroot
      | succ i =>
        rw [← List.getElem?_tail] at hk
        exact absurd hsolved (SearchTree.story_later (List.mem_of_getElem? hk))

end Steps

section Iterations

variable {plan : Plan α} {root : R} {n : Nat} {p q : Progress R α}

/-- What a search says in its first `n` iterations. -/
def told (plan : Plan α) (root : R) : Nat → List (Notice α)
  | 0 => []
  | n + 1 => told plan root n ++
    match after plan root n with
    | .error _ => []
    | .ok p => if p.isDone then [] else (p.search.advance plan).1

/-- The events of the first `n` iterations, none of which gets lost. -/
def stream (plan : Plan α) (clock : Nat → Nat) (root : R) (n : Nat) : List (Event α) :=
  Event.ofNotices clock 0 (told plan root n)

theorem told_succ (h : after plan root n = .ok p) (hgoes : p.isDone = false) :
    told plan root (n + 1) = told plan root n ++ (p.search.advance plan).1 := by
  rw [told, h]
  dsimp only
  rw [if_neg (Bool.eq_false_iff.mp hgoes)]

theorem told_succ_of_done (h : after plan root n = .ok p) (hdone : p.isDone = true) :
    told plan root (n + 1) = told plan root n := by
  rw [told, h]
  dsimp only
  rw [if_pos hdone, List.append_nil]

theorem headline_stream (plan : Plan α) (clock : Nat → Nat) (root : R) (n : Nat) :
    (stream plan clock root n).map Event.headline
      = (told plan root n).filterMap Notice.headline? :=
  Event.headline_ofNotices clock 0 _

/-- What a search has said agrees with its books after any number of iterations. -/
theorem after_narrated (h : after plan root n = .ok p) :
    p.search.Narrated ((told plan root n).filterMap Notice.headline?) := by
  induction n generalizing p with
  | zero =>
    cases h
    exact narrated_initial plan.settings root
  | succ n ih =>
    cases hprev : after plan root n with
    | error e =>
      rw [after, hprev] at h
      cases h
    | ok q =>
      cases hdone : q.isDone with
      | true =>
        rw [after_succ_of_done hprev hdone] at h
        cases h
        rw [told_succ_of_done hprev hdone]
        exact ih hprev
      | false =>
        rw [after_succ hprev hdone] at h
        obtain ⟨picks, hvisits⟩ := after_visits hprev
        rw [told_succ hprev hdone, List.filterMap_append]
        exact (ih hprev).advance hvisits.ledger (Progress.waits_of_not_done hdone)
          (Prod.ext rfl h)

end Iterations

/-- A waiting node other than the root is on the floor side if its id is even, and on the ceiling
side if it is odd. -/
theorem Ledger.side {s : Search R α} {picks : List (Violation α)} (hs : s.Ledger picks)
    {node : Subproblem R α} (hnode : node ∈ s.pool.waiting) {id : Nat} (hid : node.id = id)
    (hroot : id ≠ 1) :
    ∃ column value, node.change
      = some (if id % 2 = 0 then .down column value else .up column value) := by
  have hknown := (hs.filed.known node.id).mp ((hs.filed.pooled node.id).mp (mem_ids hnode)).1
  rw [hs.counts.issued, ← hs.family.picked, hid] at hknown
  have hpick : id / 2 - 1 < picks.length := by omega
  obtain ⟨heven, hodd⟩ := hs.family.sides node hnode _ _ (List.getElem?_eq_getElem hpick)
  refine ⟨picks[id / 2 - 1].column, picks[id / 2 - 1].value, ?_⟩
  split
  · have hhalf : id = 2 * (id / 2 - 1 + 1) := by omega
    exact heven (hid.trans hhalf)
  · have hhalf : id = 2 * (id / 2 - 1 + 1) + 1 := by omega
    exact hodd (hid.trans hhalf)

end Search

/-! ## What is told of a run -/

section Sessions

variable {L : Type} [Link L]

omit [Relaxation R α] in
/-- Publishing notices gives telemetry the events among them. Their times count the events sent,
which are all of them as long as telemetry is on. -/
theorem Session.telemetry_publish (clock : Nat → Nat) (s : Session R α L)
    (notices : List (Notice α)) : (s.publish clock notices).telemetry
      = s.telemetry.emitAll (Event.ofNotices clock s.telemetry.sent notices) := by
  induction notices generalizing s with
  | nil => rfl
  | cons notice rest ih =>
    refine (ih _).trans ?_
    cases notice with
    | log record => rfl
    | event node parent kind =>
      rw [Event.ofNotices, Telemetry.emitAll_cons]
      dsimp only [publishOne]
      cases hon : s.telemetry.enabled with
      | false => rw [Telemetry.emit_disabled hon, Telemetry.emitAll_disabled hon,
          Telemetry.emitAll_disabled hon]
      | true =>
        rcases Telemetry.emit_cases hon (Event.new (clock s.telemetry.sent) node parent kind) with
          ⟨link, -, hemit⟩ | ⟨e, link, -, hemit⟩
        · rw [hemit]
        · rw [hemit, Telemetry.emitAll_disabled rfl, Telemetry.emitAll_disabled rfl]

/-- Events made for telemetry that has been given others before are those that follow them. -/
theorem Telemetry.emitAll_ofNotices (link : L) (clock : Nat → Nat)
    (notices more : List (Notice α)) :
    let t := (new link).emitAll (Event.ofNotices clock 0 notices)
    t.emitAll (Event.ofNotices clock t.sent more)
      = (new link).emitAll (Event.ofNotices clock 0 (notices ++ more)) := by
  dsimp only
  rw [Event.ofNotices_append, emitAll_append]
  cases hon : ((new link).emitAll (Event.ofNotices clock 0 notices)).enabled with
  | false => rw [emitAll_disabled hon, emitAll_disabled hon]
  | true =>
    rw [sent_emitAll hon]
    rfl

/-- A loop that returns has followed the search without a cap, one node in each iteration, and has
given its telemetry what that search says. -/
theorem Session.explore_stream {plan : Plan α} {root : R} {around : Surroundings L} {link : L}
    {remaining n : Nat} {s s' : Session R α L} {ending : Ending α}
    (h : Search.after plan root n = .ok ⟨s.search, false⟩) (hsize : s.search.trace.size = n)
    (htold : s.telemetry = (Telemetry.new link).emitAll (Search.stream plan around.clock root n))
    (hrun : s.explore plan around remaining = (ending, s')) (hends : ∀ e, ending ≠ .failed e) :
    ∃ p, Search.after plan root p.search.trace.size = .ok p ∧ s'.search = p.search ∧
      s'.telemetry = (Telemetry.new link).emitAll
        (Search.stream plan around.clock root p.search.trace.size) := by
  -- The loop has `n` iterations behind it; the induction is on those that it may still take.
  induction remaining generalizing n s with
  | zero =>
    subst hsize
    unfold explore at hrun
    split at hrun
    · cases hrun
      exact ⟨⟨s'.search, false⟩, h, rfl, htold⟩
    · split at hrun
      · cases hrun
        exact ⟨⟨s.search, false⟩, h, rfl, htold⟩
      · cases hrun
        exact absurd rfl (hends _)
  | succ left ih =>
    subst hsize
    unfold explore at hrun
    split at hrun
    · cases hrun
      exact ⟨⟨s'.search, false⟩, h, rfl, htold⟩
    · rename_i hwaits
      split at hrun
      · cases hrun
        exact ⟨⟨s.search, false⟩, h, rfl, htold⟩
      · have hgoes : (⟨s.search, false⟩ : Search.Progress R α).isDone = false := by
          simpa [Search.Progress.isDone] using hwaits
        dsimp only at hrun
        split at hrun
        · cases hrun
          exact absurd rfl (hends _)
        · rename_i notices p hadv
          have hnext : Search.after plan root (s.search.trace.size + 1) = .ok p := by
            rw [Search.after_succ h hgoes, hadv]
          have hnextSize : p.search.trace.size = s.search.trace.size + 1 := by
            obtain ⟨entry, htrace⟩ := Search.advance_trace hgoes hadv
            rw [htrace, Array.size_push]
          have hnextTold : ({ s with search := p.search }.publish around.clock notices).telemetry
              = (Telemetry.new link).emitAll
                (Search.stream plan around.clock root (s.search.trace.size + 1)) := by
            rw [telemetry_publish, htold, Search.stream, Telemetry.emitAll_ofNotices,
              Search.stream, Search.told_succ h hgoes, hadv]
          split at hrun
          · cases hrun
            rw [← hnextSize] at hnext hnextTold
            exact ⟨p, hnext, search_publish _ _ _, hnextTold⟩
          · rename_i hstop
            apply ih _ _ hnextTold hrun
            · rw [search_publish, hnext, ← Bool.eq_false_iff.mpr hstop]
            · rw [search_publish]
              exact hnextSize

/-- A run that returns has followed the search without a cap and has given its telemetry what that
search says. -/
theorem branchAndCut_stream {plan : Plan α} {root : R} {around : Surroundings L} {link : L}
    {sol : Solution α}
    (h : (branchAndCut plan around (Telemetry.new link) root).result = .ok sol) :
    ∃ p, Search.after plan root sol.trace.size = .ok p ∧
      sol = Solution.ofSearch p.search sol.status ∧
      (branchAndCut plan around (Telemetry.new link) root).telemetry
        = (Telemetry.new link).emitAll
          (Search.stream plan around.clock root sol.trace.size) := by
  unfold branchAndCut at h ⊢
  split at h
  · cases h
  · unfold Session.run at h ⊢
    dsimp only at h ⊢
    split at h
    · rename_i s hexplore
      cases h
      obtain ⟨p, hp, hsearch, htold⟩ := Session.explore_stream rfl rfl rfl hexplore nofun
      obtain ⟨search, telemetry, log⟩ := s
      cases hsearch
      exact ⟨p, hp, rfl, htold⟩
    · rename_i s hexplore
      cases h
      obtain ⟨p, hp, hsearch, htold⟩ := Session.explore_stream rfl rfl rfl hexplore nofun
      obtain ⟨search, telemetry, log⟩ := s
      cases hsearch
      exact ⟨p, hp, rfl, htold⟩
    · cases h

end Sessions

/-- Events about the nodes of a solution. Their headlines are those of the trace, in order, and each
names the parent of its node and the side on which it is drawn. Of every node but the root it is
told once that it is a candidate, and that before it is solved. -/
structure Solution.Transcript (sol : Solution α) (stream : List (Event α)) : Prop where
  told : stream.map Event.headline = sol.trace.toList.flatMap sol.tree.story
  children : ∀ id, (id, Fate.branched) ∈ sol.trace →
    ∃ k, sol.tree.childrenOf id = [2 * k, 2 * k + 1]
  parents : ∀ event ∈ stream, event.parent = sol.tree.parent? event.node
  directions : ∀ event ∈ stream, event.direction
    = if event.node = 1 then .middle else if event.node % 2 = 0 then .right else .left
  announcedOnce : ∀ id n, sol.tree.get? id = some n →
    ((stream.filter fun event => event.kind.tag = "candidate").map Event.node).count id
      = if id = 1 then 0 else 1
  announcedBefore : ∀ k event, stream[k]? = some event → event.kind.tag = "pregnant" →
    event.node ≠ 1 → ∃ candidate ∈ stream.take k,
      candidate.kind.tag = "candidate" ∧ candidate.node = event.node

/-- What a search has said is a transcript of the solution that is read off it. -/
theorem Search.transcript_stream {plan : Plan α} {root : R} {n : Nat} {p : Search.Progress R α}
    (h : after plan root n = .ok p) (clock : Nat → Nat) (status : Status) :
    (Solution.ofSearch p.search status).Transcript (stream plan clock root n) := by
  obtain ⟨picks, hvisits⟩ := after_visits h
  have hs := hvisits.ledger
  have hn := after_narrated h
  rw [← headline_stream plan clock root n] at hn
  constructor
  case told => exact hn.told
  case children =>
    intro id hid
    have hmem : id ∈ p.search.branchedIds := by
      simpa [branchedIds, Solution.ofSearch] using hid
    obtain ⟨k, hk⟩ := List.getElem?_of_mem hmem
    obtain ⟨record, hrecord, hchildren⟩ := hs.family.split k id hk
    exact ⟨k + 1, (SearchTree.childrenOf_eq hrecord).trans hchildren⟩
  case parents =>
    intro event hevent
    exact hn.parents event.headline (List.mem_map_of_mem hevent)
  case directions =>
    intro event hevent
    have hknown := (hs.filed.known _).mp (hn.known event.headline (List.mem_map_of_mem hevent))
    have hroot : event.node ≤ 1 ↔ event.node = 1 :=
      ⟨fun hle => Nat.le_antisymm hle hknown.1, Nat.le_of_eq⟩
    rw [Event.direction_ofNotices hevent, Direction.ofNode]
    simp only [hroot]
  case announcedOnce =>
    intro id record hrecord
    have hknown := (hs.filed.known id).mp ((hs.filed.indexed.contains_iff).mpr ⟨record, hrecord⟩)
    rw [hs.counts.issued] at hknown
    have hcandidates : ((stream plan clock root n).filter fun event =>
        event.kind.tag = "candidate").map Event.node
          = List.range' 2 (2 * p.search.tally.branched) := by
      rw [← hn.candidates, List.filter_map, List.map_map]
      rfl
    rw [hcandidates]
    split
    · rename_i hid
      rw [List.count_eq_zero, List.mem_range'_1, hid]
      omega
    · rename_i hid
      have hlt := Nat.lt_of_le_of_ne hknown.1 (Ne.symm hid)
      apply List.count_eq_one_of_mem List.nodup_range'
      rw [List.mem_range'_1]
      omega
  case announcedBefore =>
    intro k event hk hsolved hroot
    obtain ⟨line, hline, htag, hnode⟩ := hn.announced k event.headline
      (by rw [List.getElem?_map, hk]; rfl) hsolved hroot
    rw [← List.map_take] at hline
    obtain ⟨candidate, hcandidate, rfl⟩ := List.mem_map.mp hline
    exact ⟨candidate, hcandidate, htag, hnode⟩

/-- What an observer is told of a run that returns, whatever its link does and whenever it is
cancelled. The events are those of the search, as many iterations as there are entries in the trace,
and they are a transcript of the solution. The first `sent` of them have been delivered, one after
each message received; these are all if no call of the link has failed, and after a call that failed
there was none. The two candidates of a branched node are its children on the floor side and on the
ceiling side. -/
theorem run_transcript (plan : Plan α) (root : R) {L : Type} [Link L]
    (around : Surroundings (Recorded L)) (link : L) {sol : Solution α}
    (h : (branchAndCut plan around (.new (.ofLink link)) root).result = .ok sol) :
    let stream := Search.stream plan around.clock root sol.trace.size
    let telemetry := (branchAndCut plan around (.new (.ofLink link)) root).telemetry
    sol.Transcript stream ∧ telemetry.Follows stream ∧
    ((∀ call ∈ telemetry.link.calls, call.failed = false) ↔ telemetry.sent = stream.length) ∧
    ∀ picks s, Search.Visits plan root picks s → ∀ node ∈ s.pool.waiting, node.id ≠ 1 →
      ∃ column value, node.change
        = some (if node.id % 2 = 0 then .down column value else .up column value) := by
  dsimp only
  obtain ⟨p, hp, hsol, htold⟩ := branchAndCut_stream h
  have hfollows := Telemetry.follows_emitAll link
    (Search.stream plan around.clock root sol.trace.size)
  rw [← htold] at hfollows
  refine ⟨?_, hfollows, hfollows.failed_iff, ?_⟩
  · rw [hsol]
    rw [hsol] at hp
    exact Search.transcript_stream hp around.clock sol.status
  · intro picks s hvisits node hnode hroot
    exact hvisits.ledger.side hnode rfl hroot

/-- An observer that answers three times is told the first three of eight events. -/
theorem run_transcript_capped : ∃ sol : Solution Exact,
    let plan : Plan Exact := ⟨plainSettings, CutPool.mostRecent⟩
    let report := branchAndCut plan .quiet (.new (Recorded.ofLink (⟨3, 0, #[]⟩ : Audience)))
      OneColumn.capped
    let stream := Search.stream plan (fun _ => 0) OneColumn.capped 3
    report.result = .ok sol ∧
    sol.trace = #[(1, .branched), (2, .prunedIntegral), (3, .prunedInfeasible)] ∧
    report.telemetry.sent = 3 ∧ stream.length = 8 ∧
    sol.Transcript stream ∧ report.telemetry.Follows stream := by
  have hrun : (branchAndCut ⟨plainSettings, CutPool.mostRecent⟩ .quiet
      (.new (Recorded.ofLink (⟨3, 0, #[]⟩ : Audience))) OneColumn.capped).result.map Solution.trace
      = .ok #[(1, .branched), (2, .prunedIntegral), (3, .prunedInfeasible)] := by
    cbv
  obtain ⟨sol, hsol, htrace⟩ := exists_ok_of_map hrun
  obtain ⟨htranscript, hfollows, -⟩ := run_transcript _ _ _ _ hsol
  have hsize : sol.trace.size = 3 := by
    rw [htrace]
    rfl
  rw [hsize] at htranscript hfollows
  refine ⟨sol, hsol, htrace, ?_, ?_, htranscript, hfollows⟩
  · cbv
  · cbv

end MixedInteger
