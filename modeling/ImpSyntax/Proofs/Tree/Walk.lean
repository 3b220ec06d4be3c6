import ImpSyntax.Proofs.Tree.Occurrences

/-!
# What a walk comes to

A visitor that goes below none of some chosen classes comes to the occurrences without such a node
above them, to each of them once and in order. Its log of entering and leaving is a sequence of
brackets: between the entering and the leaving of a node stands what is logged below the node. A
counter that is raised for the time that is spent below a loop tells the number of loops above.

Main results:

* `Node.visited_eq_map_reached` — the nodes that are visited.
* `Node.trace_eq`, `Node.bracketed_trace` — the log of a walk.
* `Node.counted_eq`, `Node.loopDepths_eq` — what counters of loops tell.
* `Node.walk_reaches` — all this together.
-/

namespace ImpSyntax

/-! ## What is reached -/

/-- Nothing above the occurrence is of one of the classes in `pruned`. -/
def Occurrence.isReached (pruned : NodeClass → Bool) (o : Occurrence) : Bool :=
  o.above.all fun n => !pruned n.nodeClass

namespace Node

/-- The occurrences in the subtree of a node that itself occurs as given, but for those with a node of
one of the classes in `pruned` above them. -/
def reachedFrom (pruned : NodeClass → Bool) (above : List Node) (role : Option Role) (n : Node) :
    List Occurrence :=
  (n.occurrencesFrom above role).filter (Occurrence.isReached pruned)

/-- The occurrences in the subtree without a node of one of the classes in `pruned` above them. -/
def reached (pruned : NodeClass → Bool) (n : Node) : List Occurrence := n.reachedFrom pruned [] none

theorem reachedFrom_eq {pruned : NodeClass → Bool} {above : List Node}
    (clear : ∀ m ∈ above, pruned m.nodeClass = false) (role : Option Role) (n : Node) :
    n.reachedFrom pruned above role = ⟨above, role, n⟩ :: if pruned n.nodeClass then []
      else n.children.flatMap fun child => child.2.reachedFrom pruned (n :: above) (some child.1) := by
  have here : Occurrence.isReached pruned ⟨above, role, n⟩ = true :=
    List.all_eq_true.mpr fun m mem => by rw [clear m mem]; rfl
  rw [reachedFrom, occurrencesFrom_eq, List.filter_cons_of_pos here, List.filter_flatMap]
  congr 1
  split
  · next stop =>
    -- all that lies below has this node above it
    refine List.flatMap_eq_nil_iff.mpr fun child _ => List.filter_eq_nil_iff.mpr fun o mem => ?_
    have among : n ∈ o.above :=
      (suffix_above_of_mem_occurrencesFrom mem).subset List.mem_cons_self
    intro reaches
    have free := List.all_eq_true.mp reaches n among
    rw [stop] at free
    cases free
  · rfl

theorem visited_eq_map_reachedFrom {pruned : NodeClass → Bool} {above : List Node}
    (clear : ∀ m ∈ above, pruned m.nodeClass = false) (role : Option Role) (n : Node) :
    n.visited pruned = (n.reachedFrom pruned above role).map Occurrence.node := by
  induction n using Node.induction generalizing above role with
  | step n ih =>
    rw [visited_eq, reachedFrom_eq clear, List.map_cons]
    congr 1
    split
    · rfl
    · next goes =>
      rw [List.map_flatMap, List.flatMap_def, List.flatMap_def]
      refine congrArg List.flatten (List.map_congr_left fun child among => ih child among ?_ _)
      exact List.forall_mem_cons.mpr ⟨Bool.eq_false_iff.mpr goes, clear⟩

/-- The nodes that are visited are those that are reached. -/
theorem visited_eq_map_reached (pruned : NodeClass → Bool) (n : Node) :
    n.visited pruned = (n.reached pruned).map Occurrence.node :=
  visited_eq_map_reachedFrom (by simp) none n

end Node

/-! ## The log of a walk -/

/-- The node that the step enters, if it enters one. -/
def WalkStep.entered? : WalkStep → Option Node
  | enter n => some n
  | leave _ => none

/-- The steps are well bracketed: a node that is entered is left behind steps that are well bracketed
themselves. -/
inductive Bracketed : List WalkStep → Prop
  | nil : Bracketed []
  | pair {n : Node} {inner rest : List WalkStep} : Bracketed inner → Bracketed rest →
      Bracketed (.enter n :: (inner ++ .leave n :: rest))

theorem Bracketed.append {steps others : List WalkStep} (h : Bracketed steps)
    (h' : Bracketed others) : Bracketed (steps ++ others) := by
  induction h with
  | nil => exact h'
  | pair inner _ _ ih =>
    rw [List.cons_append, List.append_assoc, List.cons_append]
    exact .pair inner ih

theorem Bracketed.flatMap {α : Type} {xs : List α} {f : α → List WalkStep}
    (h : ∀ x ∈ xs, Bracketed (f x)) : Bracketed (xs.flatMap f) := by
  induction xs with
  | nil => exact .nil
  | cons x xs ih =>
    rw [List.forall_mem_cons] at h
    exact h.1.append (ih h.2)

/-- What is logged on a visit does not hang on what was logged before. -/
theorem Visitor.visit_tracing (pruned : NodeClass → Bool) (n : Node) (log : List WalkStep) :
    (tracing pruned).visit n log = (n.trace pruned).reverse ++ log := by
  have step : ∀ n log, (tracing pruned).visit n log = .leave n ::
      if pruned n.nodeClass then .enter n :: log
      else (tracing pruned).visitChildren n (.enter n :: log) :=
    fun n log => congrFun ((tracing pruned).visit_eq n) log
  induction n using Node.induction generalizing log with
  | step n ih =>
    rw [Node.trace, List.reverse_reverse, step, step]
    split
    · rfl
    · rw [visitChildren_eq ih, visitChildren_eq ih, List.cons_append, List.append_assoc]
      rfl

namespace Node

/-- The steps of the walk below the node. -/
def traceBelow (pruned : NodeClass → Bool) (n : Node) : List WalkStep :=
  if pruned n.nodeClass then [] else n.children.flatMap fun child => child.2.trace pruned

/-- A node is entered, then come the steps below it, and then it is left. -/
theorem trace_eq (pruned : NodeClass → Bool) (n : Node) :
    n.trace pruned = .enter n :: (n.traceBelow pruned ++ [.leave n]) := by
  rw [trace, Visitor.visit_eq, traceBelow]
  show (WalkStep.leave n :: if pruned n.nodeClass then [.enter n]
    else (Visitor.tracing pruned).visitChildren n [.enter n]).reverse = _
  split
  · rfl
  · rw [Visitor.visitChildren_eq fun child _ => Visitor.visit_tracing pruned child.2]
    simp

theorem bracketed_trace (pruned : NodeClass → Bool) (n : Node) : Bracketed (n.trace pruned) := by
  induction n using Node.induction with
  | step n ih =>
    rw [trace_eq, traceBelow]
    refine .pair ?_ .nil
    split
    · exact .nil
    · exact .flatMap ih

theorem filterMap_entered_trace (pruned : NodeClass → Bool) (n : Node) :
    (n.trace pruned).filterMap WalkStep.entered? = n.visited pruned := by
  induction n using Node.induction with
  | step n ih =>
    have entered : WalkStep.entered? (.enter n) = some n := rfl
    have left : [WalkStep.leave n].filterMap WalkStep.entered? = [] := rfl
    rw [trace_eq, visited_eq, List.filterMap_cons_some entered, List.filterMap_append, left,
      List.append_nil, traceBelow]
    congr 1
    split
    · rfl
    · rw [List.filterMap_flatMap, List.flatMap_def, List.flatMap_def]
      exact congrArg List.flatten (List.map_congr_left ih)

/-- Where a node is entered, the steps below it follow, and then it is left. -/
theorem drop_trace_of_enter {pruned : NodeClass → Bool} {n m : Node} {i : Nat}
    (h : (n.trace pruned)[i]? = some (.enter m)) :
    ∃ rest, (n.trace pruned).drop i = .enter m :: (m.traceBelow pruned ++ .leave m :: rest) := by
  induction n using Node.induction generalizing i with
  | step n ih =>
    cases i with
    | zero =>
      rw [trace_eq] at h
      cases h
      exact ⟨[], by rw [trace_eq]; rfl⟩
    | succ i =>
      rw [trace_eq, List.getElem?_cons_succ] at h
      rw [trace_eq pruned n, List.drop_succ_cons]
      by_cases inside : i < (n.traceBelow pruned).length
      · rw [List.getElem?_append_left inside] at h
        rw [List.drop_append_of_le_length (Nat.le_of_lt inside)]
        rw [traceBelow] at h ⊢
        split at h
        · simp at h
        · next goes =>
          rw [if_neg goes]
          obtain ⟨child, among, k, others, found, behind⟩ := exists_drop_flatMap h
          obtain ⟨rest, steps⟩ := ih child among found
          refine ⟨rest ++ others ++ [.leave n], ?_⟩
          rw [behind, steps]
          simp
      · rw [List.getElem?_append_right (Nat.le_of_not_lt inside),
          List.getElem?_singleton] at h
        split at h <;> cases h

end Node

/-! ## Counting loops -/

/-- The number of loops among the nodes. -/
def loopCount (above : List Node) : Nat := above.countP fun n => n.nodeClass == .whileStatement

/-- The number of loops above the occurrence. -/
def Occurrence.loops (o : Occurrence) : Nat := loopCount o.above

theorem loopCount_cons (n : Node) (above : List Node) :
    loopCount (n :: above) =
      if n.nodeClass = .whileStatement then loopCount above + 1 else loopCount above := by
  rw [loopCount, List.countP_cons]
  by_cases loop : n.nodeClass = .whileStatement <;> simp [loop, loopCount]

/-- The visitor that goes below none of the classes in `pruned`, and notes every node that it comes to,
the last one first, with a counter that is one higher for the time spent below a loop. -/
def Visitor.counting (pruned : NodeClass → Bool) : Visitor (Nat × List (Node × Nat)) where
  hook n below state :=
    let noted := (state.1, (n, state.1) :: state.2)
    if pruned n.nodeClass then noted
    else if n.nodeClass = .whileStatement then
      let behind := below (noted.1 + 1, noted.2)
      (behind.1 - 1, behind.2)
    else below noted

/-- The visit notes every node that is reached with the number of loops above it, and leaves the counter
as it was. -/
theorem Visitor.visit_counting {pruned : NodeClass → Bool} {above : List Node}
    (clear : ∀ m ∈ above, pruned m.nodeClass = false) (role : Option Role) (n : Node)
    (seen : List (Node × Nat)) :
    (counting pruned).visit n (loopCount above, seen) = (loopCount above,
      ((n.reachedFrom pruned above role).map fun o => (o.node, o.loops)).reverse ++ seen) := by
  induction n using Node.induction generalizing above role seen with
  | step n ih =>
    let noted := (n, loopCount above) :: seen
    have step : (counting pruned).visit n (loopCount above, seen) =
        if pruned n.nodeClass then (loopCount above, noted)
        else if n.nodeClass = .whileStatement then
          let behind := (counting pruned).visitChildren n (loopCount above + 1, noted)
          (behind.1 - 1, behind.2)
        else (counting pruned).visitChildren n (loopCount above, noted) :=
      congrFun ((counting pruned).visit_eq n) _
    rw [step, Node.reachedFrom_eq clear]
    split
    · rfl
    · next goes =>
      have below := visitChildren_mk (v := counting pruned) (Prod.mk (loopCount (n :: above)))
        (fun child among => ih child among
          (List.forall_mem_cons.mpr ⟨Bool.eq_false_iff.mpr goes, clear⟩) (some child.1)) noted
      rw [loopCount_cons] at below
      split
      · next loop =>
        rw [if_pos loop] at below
        simp only [below]
        simp [List.map_flatMap, noted, Occurrence.loops]
      · next other =>
        rw [if_neg other] at below
        rw [below]
        simp [List.map_flatMap, noted, Occurrence.loops]

/-- What the node is to the loops around it. -/
def Node.loopSite? : Node → Option LoopSite
  | stmt (.jump j _) => some (.jump j)
  | expr (.location name _) => some (.location name)
  | _ => none

/-- The jump or location that occurs, with the number of loops above it. -/
def Occurrence.loopSite? (o : Occurrence) : Option (LoopSite × Nat) :=
  o.node.loopSite?.map fun site => (site, o.loops)

/-- What is done at a node: jumps and locations are noted, and have no children; around the walk below a
loop the counter is one higher. -/
theorem Visitor.hook_countingLoops (n : Node) (below : LoopLog → LoopLog) (log : LoopLog) :
    (∃ site, n.loopSite? = some site ∧ n.children = [] ∧
      countingLoops.hook n below log = log.note site) ∨
    (n.loopSite? = none ∧ countingLoops.hook n below log =
      if n.nodeClass = .whileStatement then (below log.enter).leave else below log) := by
  match n with
  | .program p => exact .inr ⟨rfl, rfl⟩
  | .type t => exact .inr ⟨rfl, rfl⟩
  | .expr e =>
    cases e with
    | location name pos => exact .inl ⟨.location name, rfl, rfl, rfl⟩
    | _ => exact .inr ⟨rfl, rfl⟩
  | .stmt s =>
    cases s with
    | jump j pos => exact .inl ⟨.jump j, rfl, rfl, rfl⟩
    | declare b name t i pos => cases b <;> exact .inr ⟨rfl, rfl⟩
    | _ => exact .inr ⟨rfl, rfl⟩

theorem Visitor.visit_countingLoops (above : List Node) (role : Option Role) (n : Node)
    (seen : List (LoopSite × Nat)) :
    countingLoops.visit n ⟨loopCount above, seen⟩ = ⟨loopCount above,
      ((n.occurrencesFrom above role).filterMap Occurrence.loopSite?).reverse ++ seen⟩ := by
  induction n using Node.induction generalizing above role seen with
  | step n ih =>
    rw [visit_eq, Node.occurrencesFrom_eq]
    rcases hook_countingLoops n (countingLoops.visitChildren n) ⟨loopCount above, seen⟩ with
      ⟨site, is, childless, step⟩ | ⟨no, step⟩ <;> rw [step]
    · have here : Occurrence.loopSite? ⟨above, role, n⟩ = some (site, loopCount above) := by
        rw [Occurrence.loopSite?, is]
        rfl
      rw [childless, List.filterMap_cons_some here]
      rfl
    · have here : Occurrence.loopSite? ⟨above, role, n⟩ = none := by
        rw [Occurrence.loopSite?, no]
        rfl
      have below := visitChildren_mk (v := countingLoops) (LoopLog.mk (loopCount (n :: above)))
        (fun child among => ih child among (n :: above) (some child.1)) seen
      rw [loopCount_cons] at below
      rw [List.filterMap_cons_none here, List.filterMap_flatMap]
      split
      · next loop =>
        rw [if_pos loop] at below
        rw [LoopLog.enter, below]
        rfl
      · next other =>
        rw [if_neg other] at below
        exact below

namespace Node

/-- The nodes that are visited, each with the counter. -/
def counted (pruned : NodeClass → Bool) (n : Node) : List (Node × Nat) :=
  ((Visitor.counting pruned).visit n (0, [])).2.reverse

theorem counted_eq (pruned : NodeClass → Bool) (n : Node) :
    n.counted pruned = (n.reached pruned).map fun o => (o.node, o.loops) := by
  have start : (0, []) = (loopCount [], ([] : List (Node × Nat))) := rfl
  rw [counted, start, Visitor.visit_counting (by simp) none]
  simp [reached]

theorem loopDepths_eq (n : Node) :
    n.loopDepths = n.occurrences.filterMap Occurrence.loopSite? := by
  have start : LoopLog.start = ⟨loopCount [], []⟩ := rfl
  rw [loopDepths, start, Visitor.visit_countingLoops [] none]
  simp [occurrences]

/-- A walk that goes below none of the classes in `pruned` enters the occurrences without such a node
above them, each once and in order. Its log is well bracketed, and between the entering and the
leaving of a node stand the logs of the walks over its children, or nothing if its class is pruned.
Without pruned classes it enters all nodes in order, as many as the size says. A counter that is
raised for the time spent below a loop is the number of loops above the node that is visited. -/
theorem walk_reaches (pruned : NodeClass → Bool) (n : Node) :
    (n.trace pruned).filterMap WalkStep.entered? =
        (n.occurrences.filter fun o => o.above.all fun m => !pruned m.nodeClass).map
          Occurrence.node ∧
      Bracketed (n.trace pruned) ∧
      (∀ i m, (n.trace pruned)[i]? = some (.enter m) → ∃ rest, (n.trace pruned).drop i =
        .enter m :: ((if pruned m.nodeClass then []
          else m.children.flatMap fun child => child.2.trace pruned) ++ .leave m :: rest)) ∧
      ((n.trace fun _ => false).filterMap WalkStep.entered? = n.preorder ∧
        n.preorder = n.occurrences.map Occurrence.node ∧ n.preorder.length = n.size) ∧
      n.counted pruned =
        ((n.occurrences.filter fun o => o.above.all fun m => !pruned m.nodeClass).map fun o =>
          (o.node, o.above.countP fun m => m.nodeClass == .whileStatement)) ∧
      n.loopDepths = n.occurrences.filterMap fun o => o.node.loopSite?.map fun site =>
        (site, o.above.countP fun m => m.nodeClass == .whileStatement) := by
  refine ⟨?_, bracketed_trace pruned n, fun i m => drop_trace_of_enter, ?_, counted_eq pruned n,
    loopDepths_eq n⟩
  · rw [filterMap_entered_trace, visited_eq_map_reached]
    rfl
  · exact ⟨filterMap_entered_trace _ n, (map_node_occurrences n).symm, length_preorder n⟩

end Node

end ImpSyntax
