import Interleave.Proofs.Explore.Progress
import Interleave.Proofs.Fingerprint.Table

set_option autoImplicit false

namespace Interleave

inductive Motion where
  | forward
  | backtrack

namespace Explorer

def move (x : Explorer) : Motion → Except ExploreError Bool × Explorer
  | .forward => x.forward
  | .backtrack =>
    match x.backtrack? with
    | some y => (.ok true, y)
    | none => (.ok false, x)

structure View where
  depth : Nat
  stateId : StateId
  path : List Transition
  state : State
  fault : Option Uncaught
  /-- What is still to be decided in the states of the trail, newest first. -/
  agendas : List (Option Agenda)
  fingerprint : Except ExploreError Fingerprint

def view (x : Explorer) : View where
  depth := x.depth
  stateId := x.stateId
  path := x.path
  state := x.state
  fault := x.fault
  agendas := (x.trail.top :: x.trail.below).map (·.agenda)
  fingerprint := x.fingerprint

/-- Whether a motion executes a statement that makes a set or a bag. -/
def makesCollection (x : Explorer) : Motion → Bool
  | .forward =>
    match x.decide.1 with
    | .ok (some move) => move.makesCollection x.model.program
    | _ => false
  | .backtrack => false

structure Response where
  result : Except ExploreError Bool
  view : View
  isNew : Bool

def walk (x : Explorer) : List Motion → List Response × Explorer
  | [] => ([], x)
  | motion :: rest =>
    let (result, y) := x.move motion
    let (responses, z) := y.walk rest
    (⟨result, y.view, y.isNew⟩ :: responses, z)

def makesCollections (x : Explorer) : List Motion → Bool
  | [] => false
  | motion :: rest => x.makesCollection motion || (x.move motion).2.makesCollections rest

end Explorer

/-- Nodes of one model that differ at most in their numbers and in those of their hash tables, with
the same order in the hash tables. -/
structure Node.Twin (model : Model) (m n : Node) : Prop where
  state : n.state = m.state
  stateId : n.stateId = m.stateId
  agenda : n.agenda = m.agenda
  transition : n.transition = m.transition
  fault : n.fault = m.fault
  layout : model.layout n.tables = model.layout m.tables

theorem Node.Twin.refl (model : Model) (n : Node) : n.Twin model n := ⟨rfl, rfl, rfl, rfl, rfl, rfl⟩

structure Trail.Twin (model : Model) (t u : Trail) : Prop where
  top : t.top.Twin model u.top
  below : List.Forall₂ (Node.Twin model) t.below u.below

namespace Trail.Twin

variable {model : Model} {t u : Trail}

theorem refl (model : Model) (t : Trail) : t.Twin model t :=
  ⟨.refl model _, List.forall₂_same.2 fun n _ => .refl model n⟩

theorem nodes (h : t.Twin model u) :
    List.Forall₂ (Node.Twin model) (t.top :: t.below) (u.top :: u.below) :=
  .cons h.top h.below

theorem path (h : t.Twin model u) : u.path = t.path := by
  have htransitions : (u.top :: u.below).map (·.transition) = (t.top :: t.below).map (·.transition) :=
    (map_eq_of_forall₂ h.nodes fun _ _ hmn => hmn.transition.symm).symm
  have hof : ∀ nodes : List Node, nodes.reverse.filterMap (·.transition) =
      (nodes.map (·.transition)).reverse.filterMap id := by
    intro nodes
    rw [← List.map_reverse, List.filterMap_map]
    rfl
  unfold Trail.path Trail.nodes
  rw [hof, hof, htransitions]

theorem setAgenda (h : t.Twin model u) (agenda : Option Agenda) :
    (t.setAgenda agenda).Twin model (u.setAgenda agenda) :=
  ⟨⟨h.top.state, h.top.stateId, rfl, h.top.transition, h.top.fault, h.top.layout⟩, h.below⟩

theorem back? (h : t.Twin model u) : Option.Rel (Trail.Twin model) t.back? u.back? := by
  obtain ⟨top, below⟩ := t
  obtain ⟨top', below'⟩ := u
  cases h.below with
  | nil => exact .none
  | cons hnode hrest => exact .some ⟨hnode, hrest⟩

end Trail.Twin

namespace Explorer

/-- Explorers of one model whose trails are the same but for the numbers of their nodes. -/
structure Alike (x y : Explorer) : Prop where
  model : y.model = x.model
  random : y.random = x.random
  trail : x.trail.Twin x.model y.trail

section Alike

variable {x y : Explorer}

theorem view_eq_of_twin (h : x.trail.Twin x.model y.trail) (hmodel : y.model = x.model) :
    y.view = x.view := by
  have hdepth : y.depth = x.depth := h.below.length_eq.symm
  have hagendas : (y.trail.top :: y.trail.below).map (·.agenda) =
      (x.trail.top :: x.trail.below).map (·.agenda) :=
    (map_eq_of_forall₂ h.nodes fun _ _ hmn => hmn.agenda.symm).symm
  have hstate : y.state = x.state := h.top.state
  unfold Explorer.view Explorer.fingerprint Explorer.path Explorer.stateId Explorer.fault
  rw [hdepth, hagendas, hmodel, hstate, h.path, h.top.stateId, h.top.fault]

theorem Alike.state (h : x.Alike y) : y.state = x.state := h.trail.top.state

theorem Alike.view (h : x.Alike y) : y.view = x.view :=
  view_eq_of_twin h.trail h.model

theorem Alike.decide (h : x.Alike y) :
    y.decide.1 = x.decide.1 ∧ x.decide.2.Alike y.decide.2 := by
  have hset : ∀ agenda random, Alike { x.setAgenda agenda with random }
      { y.setAgenda agenda with random } :=
    fun agenda random => ⟨h.model, rfl, h.trail.setAgenda agenda⟩
  have hset' : ∀ agenda, (x.setAgenda agenda).Alike (y.setAgenda agenda) :=
    fun agenda => ⟨h.model, h.random, h.trail.setAgenda agenda⟩
  unfold Explorer.decide
  rw [h.trail.top.agenda, h.state, h.model, h.random]
  cases x.trail.top.agenda with
  | none => exact ⟨rfl, h⟩
  | some agenda =>
    dsimp only
    rcases agenda.advance with ⟨_ | fresh, _ | next⟩
    · exact ⟨rfl, hset' _⟩
    · exact ⟨rfl, hset' _⟩
    · exact ⟨rfl, hset' _⟩
    · dsimp only
      cases scheduled x.state next.schedule with
      | error e => exact ⟨rfl, hset' _⟩
      | ok chosen =>
        dsimp only
        split
        · rcases openChoice x.random chosen.2.choiceId _ _ with ⟨_ | data, random⟩
          · exact ⟨rfl, hset _ _⟩
          · exact ⟨rfl, hset _ _⟩
        · exact ⟨rfl, hset' _⟩

theorem Alike.successor (h : x.Alike y) (move : Move) : y.successor move = x.successor move := by
  have hlayout : y.layout = x.layout := by
    unfold Explorer.layout
    rw [h.model, h.trail.top.layout]
  unfold Explorer.successor
  rw [h.model, h.state, hlayout]

structure Keeps (x y : Explorer) : Prop where
  model : y.model = x.model
  numbers : ∀ g id, x.table.number? g = some id → y.table.number? g = some id

theorem Keeps.refl (x : Explorer) : x.Keeps x := ⟨rfl, fun _ _ => id⟩

theorem Keeps.trans {z : Explorer} (h : x.Keeps y) (h' : y.Keeps z) : x.Keeps z :=
  ⟨h'.model.trans h.model, fun g id => h'.numbers g id ∘ h.numbers g id⟩

theorem move_keeps (x : Explorer) (motion : Motion) : x.Keeps (x.move motion).2 := by
  cases motion with
  | forward =>
    obtain ⟨_, hmodel, htable, _⟩ := decide_stays x
    unfold Explorer.move Explorer.forward
    rcases hdecide : x.decide with ⟨result, x₁⟩
    rw [hdecide] at hmodel htable
    have hdecided : x.Keeps x₁ := ⟨hmodel, fun g id hg => htable ▸ hg⟩
    cases result with
    | error e => exact hdecided
    | ok move? =>
      cases move? with
      | none => exact hdecided
      | some move =>
        dsimp only
        cases x₁.successor move with
        | error e => exact hdecided
        | ok next =>
          exact hdecided.trans ⟨rfl, fun g id => StateTable.number?_add_of_number? _⟩
  | backtrack =>
    unfold Explorer.move
    cases hback : x.backtrack? with
    | none => exact .refl x
    | some x₁ =>
      obtain ⟨trail, _, rfl⟩ := Option.map_eq_some_iff.1 hback
      exact ⟨rfl, fun _ _ => id⟩

theorem walk_keeps (x : Explorer) (motions : List Motion) : x.Keeps (x.walk motions).2 := by
  induction motions generalizing x with
  | nil => exact .refl x
  | cons motion rest ih => exact (move_keeps x motion).trans (ih _)

theorem Alike.enter (h : x.Alike y) {move : Move} {next : Successor}
    (hlayout : move.makesCollection x.model.program = true →
      ∀ tables, x.model.layout tables = x.model.layout [])
    (hnumber : y.table.number? next.fingerprint = some (x.table.add next.fingerprint).1) :
    (x.enter move next).Alike (y.enter move next) ∧ (y.enter move next).table = y.table ∧
      (y.enter move next).isNew = false := by
  obtain ⟨model, table, trail, isNew, random, births⟩ := x
  obtain ⟨model', table', trail', isNew', random', births'⟩ := y
  obtain ⟨hmodel, hrandom, htrail⟩ := h
  dsimp only at hmodel hrandom htrail hlayout hnumber
  subst hmodel hrandom
  simp only [Explorer.enter, StateTable.add_of_number? hnumber, and_true]
  refine ⟨rfl, rfl, ⟨rfl, rfl, rfl, ?_, rfl, ?_⟩, htrail.nodes⟩
  · rw [htrail.top.state]
    rfl
  · dsimp only
    split
    · next hmakes => exact (hlayout hmakes _).trans (hlayout hmakes _).symm
    · exact htrail.top.layout

/-- The second of two explorers makes a motion as the first one does when its table has what the
first one finds or enters, and no order of a new hash table can differ. -/
theorem Alike.move (h : x.Alike y) (motion : Motion)
    (hlayout : x.makesCollection motion = true →
      ∀ tables, x.model.layout tables = x.model.layout [])
    (hnumber : ∀ g id, (x.move motion).2.table.number? g = some id → y.table.number? g = some id) :
    (y.move motion).1 = (x.move motion).1 ∧ (x.move motion).2.Alike (y.move motion).2 ∧
      (y.move motion).2.table = y.table ∧ (y.isNew = false → (y.move motion).2.isNew = false) := by
  cases motion with
  | forward =>
    obtain ⟨hresult, halike⟩ := h.decide
    obtain ⟨_, _, htable', hnew, _⟩ := decide_stays y
    have hmodel := (decide_stays x).model
    unfold Explorer.makesCollection at hlayout
    unfold Explorer.move Explorer.forward at hnumber ⊢
    rcases hx : x.decide with ⟨result, x₁⟩
    rcases hy : y.decide with ⟨result', y₁⟩
    rw [hx, hy] at hresult halike
    rw [hx] at hnumber hlayout hmodel
    rw [hy] at htable' hnew
    dsimp only at hresult halike htable' hnew hnumber hlayout hmodel ⊢
    subst hresult
    cases result' with
    | error e => exact ⟨rfl, halike, htable', hnew.trans⟩
    | ok move? =>
      cases move? with
      | none => exact ⟨rfl, halike, htable', hnew.trans⟩
      | some move =>
        dsimp only at hnumber ⊢
        rw [halike.successor move]
        cases hsuccessor : x₁.successor move with
        | error e => exact ⟨rfl, halike, htable', hnew.trans⟩
        | ok next =>
          rw [hsuccessor] at hnumber
          dsimp only at hnumber
          have hmet : y₁.table.number? next.fingerprint =
              some (x₁.table.add next.fingerprint).1 := by
            rw [htable']
            exact hnumber _ _ (StateTable.number?_add_self _ _)
          obtain ⟨hentered, hsame, hold⟩ := halike.enter (hmodel ▸ hlayout) hmet
          exact ⟨rfl, hentered, hsame.trans htable', fun _ => hold⟩
  | backtrack =>
    unfold Explorer.move Explorer.backtrack?
    obtain ⟨hx, hy⟩ | ⟨t, u, hx, hy, htu⟩ := optionRel_cases h.trail.back?
    · rw [hx, hy]
      exact ⟨rfl, h, rfl, id⟩
    · rw [hx, hy]
      exact ⟨rfl, ⟨h.model, h.random, htu⟩, rfl, fun _ => rfl⟩

theorem Alike.walk (h : x.Alike y) (hnew : y.isNew = false) (motions : List Motion)
    (hlayout : x.makesCollections motions = true →
      ∀ tables, x.model.layout tables = x.model.layout [])
    (hnumber : ∀ g id, (x.walk motions).2.table.number? g = some id → y.table.number? g = some id) :
    (y.walk motions).1 = (x.walk motions).1.map (fun r => { r with isNew := false }) ∧
      (y.walk motions).2.table = y.table := by
  induction motions generalizing x y with
  | nil => exact ⟨rfl, rfl⟩
  | cons motion rest ih =>
    have hfirst : x.makesCollection motion = true → x.makesCollections (motion :: rest) = true :=
      fun hmakes => Bool.or_eq_true_iff.2 (.inl hmakes)
    -- what the first motion enters is still in the table at the end of the first walk
    obtain ⟨hresult, halike, htable, hold⟩ := h.move motion (fun hmakes => hlayout (hfirst hmakes))
      fun g id hg => hnumber g id ((walk_keeps _ rest).numbers g id hg)
    have hrest : (x.move motion).2.makesCollections rest = true →
        ∀ tables, (x.move motion).2.model.layout tables = (x.move motion).2.model.layout [] := by
      intro hmakes
      rw [(move_keeps x motion).model]
      exact hlayout (Bool.or_eq_true_iff.2 (.inr hmakes))
    obtain ⟨hresponses, hsame⟩ := ih halike (hold hnew) hrest fun g id hg => by
      rw [htable]
      exact hnumber g id hg
    refine ⟨?_, hsame.trans htable⟩
    simp only [Explorer.walk, List.map_cons, hresponses, hresult, halike.view, hold hnew]

end Alike

section Uses

variable {x y : Explorer} {kept held : List Trail} {p : Program} {c : Config}

theorem Leads.keeps (h : x.Leads kept y held) : x.Keeps y := by
  induction h with
  | refl => exact .refl x
  | forward _ ih => exact ih.trans (move_keeps _ .forward)
  | backtrack _ hback ih =>
    obtain ⟨trail, _, rfl⟩ := Option.map_eq_some_iff.1 hback
    exact ih.trans ⟨rfl, fun _ _ => id⟩
  | keep _ ih => exact ih
  | letGo _ _ ih => exact ih
  | restore _ _ ih | collect _ ih | setSchedule _ _ ih | randomizeChoices _ _ ih =>
    exact ih.trans ⟨rfl, fun _ _ => id⟩
  | shuffleSchedule _ _ ih =>
    refine ih.trans ?_
    unfold Explorer.shuffleSchedule
    split
    · exact .refl _
    · exact ⟨rfl, fun _ _ => id⟩

theorem InUse.plain (h : Explorer.InUse p c x kept) (hc : c.symmetry = .canonical)
    (tables : List (Handle × Nat)) : x.model.layout tables = x.model.layout [] := by
  obtain ⟨x₀, hstarted, hleads⟩ := h
  obtain ⟨_, _, hstarts⟩ := hstarted.starts
  unfold Model.layout
  rw [hleads.keeps.model, hstarts.plain (.inl hc)]

end Uses

end Explorer

/-- However an explorer was used after a trail was kept and some motions were made, taking the trail
up again brings back all that was shown then. With choices shuffled as then, if at all, the same
motions get the same answers and show the same as the first time, with no state that is new, unless
they make a hash table, which may list its members in another order. -/
theorem restore_replays {p : Program} {c : Config} {x : Explorer} {kept : List Trail}
    (hx : Explorer.InUse p c x kept) (motions : List Motion) {y : Explorer} {held : List Trail}
    (hy : (x.walk motions).2.Leads (x.trail :: kept) y held) :
    (y.restore x.trail).view = x.view ∧ (y.restore x.trail).isNew = false ∧
      (y.random = x.random → c.symmetry = .canonical ∨ x.makesCollections motions = false →
        ((y.restore x.trail).walk motions).1 =
            (x.walk motions).1.map (fun response => { response with isNew := false }) ∧
          ((y.restore x.trail).walk motions).2.table = y.table) := by
  have hkeeps : x.Keeps y := (Explorer.walk_keeps x motions).trans hy.keeps
  have htwin : x.trail.Twin x.model (y.restore x.trail).trail := .refl _ _
  refine ⟨Explorer.view_eq_of_twin htwin hkeeps.model, rfl, fun hrandom hordered => ?_⟩
  have halike : x.Alike (y.restore x.trail) := ⟨hkeeps.model, hrandom, htwin⟩
  refine halike.walk rfl motions (fun hmakes => ?_) hy.keeps.numbers
  rcases hordered with hcanonical | hnone
  · exact hx.plain hcanonical
  · cases hmakes.symm.trans hnone

/-- One thread chooses what the other one may overwrite. -/
def overwritingSource : String :=
  "static int x\nthread a \x7b\n  x = choose(1, 2)\n  x = x + 1\n\x7d\n" ++
  "thread b \x7b\n  x = 5\n\x7d\n"

/-- Two steps, back once and another step, from the initial state; then a collection and one step
more, which enters a state that the first walk did not meet. -/
theorem overwriting_replays : ∃ p x y,
    Program.ofSource overwritingSource "overwriting" = .ok p ∧
    Explorer.InUse p Config.default x [] ∧
    (x.walk [.forward, .forward, .backtrack, .forward]).2.Leads [x.trail] y [x.trail] ∧
    (x.walk [.forward, .forward, .backtrack, .forward]).1.map (·.isNew) =
      [true, true, false, true] ∧
    (x.walk [.forward, .forward, .backtrack, .forward]).2.table.size < y.table.size ∧
    (y.restore x.trail).view = x.view ∧ (y.restore x.trail).isNew = false ∧
    ((y.restore x.trail).walk [.forward, .forward, .backtrack, .forward]).1 =
      (x.walk [.forward, .forward, .backtrack, .forward]).1.map
        (fun response => { response with isNew := false }) ∧
    ((y.restore x.trail).walk [.forward, .forward, .backtrack, .forward]).2.table = y.table := by
  have hfacts : (Program.ofSource overwritingSource "overwriting").toOption.any (fun p =>
      (Explorer.start p Config.default).toOption.any fun x =>
        let y := ((x.walk [.forward, .forward, .backtrack, .forward]).2.collect [x.trail]).2.forward.2
        decide ((x.walk [.forward, .forward, .backtrack, .forward]).1.map (·.isNew) =
          [true, true, false, true]) &&
        decide ((x.walk [.forward, .forward, .backtrack, .forward]).2.table.size < y.table.size) &&
        decide (y.random.isNone ∧ x.random.isNone) &&
        !x.makesCollections [.forward, .forward, .backtrack, .forward]) = true := by
    decide +kernel
  cases hp : Program.ofSource overwritingSource "overwriting" with
  | error e =>
    rw [hp] at hfacts
    cases hfacts
  | ok p =>
    rw [hp] at hfacts
    cases hstart : Explorer.start p Config.default with
    | error e => simp [hstart, Except.toOption] at hfacts
    | ok x =>
      simp only [Except.toOption, Option.any_some, hstart, Bool.and_eq_true, decide_eq_true_iff,
        Option.isNone_iff_eq_none, Bool.not_eq_true'] at hfacts
      obtain ⟨⟨⟨hnew, hmore⟩, hy, hx⟩, hmakes⟩ := hfacts
      have hinUse : Explorer.InUse p Config.default x [] := ⟨x, ⟨_, hstart⟩, .refl⟩
      have hleads : (x.walk [.forward, .forward, .backtrack, .forward]).2.Leads [x.trail]
          ((x.walk [.forward, .forward, .backtrack, .forward]).2.collect [x.trail]).2.forward.2
          [x.trail] := .forward (.collect .refl)
      obtain ⟨hview, hold, hagain⟩ := restore_replays hinUse _ hleads
      exact ⟨p, x, _, rfl, hinUse, hleads, hnew, hmore, hview, hold,
        hagain (hy.trans hx.symm) (.inr hmakes)⟩

/-- Two objects in a set, one of which is also found elsewhere. -/
def poolingSource : String :=
  "static ref pool\nstatic ref box\nclass Node \x7b\n  ref next\n\x7d\n" ++
  "thread t \x7b\n  a = new Node\n  b = new Node\n  box = new Node\n  pool = newset\n" ++
  "  add pool, a\n  add pool, b\n  box.next = a\n\x7d\n"

/-- The second hash table lists the two objects the other way round, and the last state is new. -/
theorem pooling_differs : ∃ p x,
    Program.ofSource poolingSource "pooling" = .ok p ∧
    Explorer.InUse p Config.default x [] ∧
    ((x.walk (List.replicate 7 .forward)).2.restore x.trail).random = x.random ∧
    (((x.walk (List.replicate 7 .forward)).2.restore x.trail).walk (List.replicate 7 .forward)).1.map
      (fun response => (response.result.toOption, response.view.stateId, response.isNew)) =
      [(some true, 1, false), (some true, 2, false), (some true, 3, false), (some true, 4, false),
        (some true, 5, false), (some true, 6, false), (some true, 8, true)] := by
  have hfacts : (Program.ofSource poolingSource "pooling").toOption.any (fun p =>
      (Explorer.start p Config.default).toOption.any fun x =>
        let y := (x.walk (List.replicate 7 .forward)).2.restore x.trail
        decide (y.random.isNone ∧ x.random.isNone) &&
        decide ((y.walk (List.replicate 7 .forward)).1.map (fun response =>
            (response.result.toOption, response.view.stateId, response.isNew)) =
          [(some true, 1, false), (some true, 2, false), (some true, 3, false),
            (some true, 4, false), (some true, 5, false), (some true, 6, false),
            (some true, 8, true)])) = true := by
    decide +kernel
  cases hp : Program.ofSource poolingSource "pooling" with
  | error e =>
    rw [hp] at hfacts
    cases hfacts
  | ok p =>
    rw [hp] at hfacts
    cases hstart : Explorer.start p Config.default with
    | error e => simp [hstart, Except.toOption] at hfacts
    | ok x =>
      simp only [Except.toOption, Option.any_some, hstart, Bool.and_eq_true, decide_eq_true_iff,
        Option.isNone_iff_eq_none] at hfacts
      obtain ⟨⟨hy, hx⟩, hwalk⟩ := hfacts
      exact ⟨p, x, rfl, ⟨x, ⟨_, hstart⟩, .refl⟩, hy.trans hx.symm, of_decide_eq_true hwalk⟩

end Interleave
