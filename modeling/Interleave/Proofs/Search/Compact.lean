import Interleave.Proofs.Search.Relentless
import Interleave.Proofs.Search.Rerun

set_option autoImplicit false

namespace Interleave

def TableKind.key (short : Fingerprint → Nat) : TableKind → Fingerprint → List Nat
  | .exact, f => f.words
  | .compact, f => [short f]

def TableKind.same (short : Fingerprint → Nat) (kind : TableKind) (f g : Fingerprint) : Bool :=
  kind.key short f = kind.key short g

theorem TableKind.same_iff {short : Fingerprint → Nat} {kind : TableKind} {f g : Fingerprint} :
    kind.same short f g = true ↔ kind.key short f = kind.key short g := decide_eq_true_iff

/-- The fingerprints that are new to a table of this kind when it is given these one by one. -/
def TableKind.firsts (short : Fingerprint → Nat) (kind : TableKind) (fs : List Fingerprint) :
    List Fingerprint :=
  fs.foldl (fun order f => if order.any (kind.same short f) then order else order ++ [f]) []

theorem TableKind.firsts_concat (short : Fingerprint → Nat) (kind : TableKind)
    (fs : List Fingerprint) (f : Fingerprint) :
    kind.firsts short (fs ++ [f]) =
      if (kind.firsts short fs).any (kind.same short f) then kind.firsts short fs
      else kind.firsts short fs ++ [f] := by
  rw [firsts, List.foldl_append]
  rfl

theorem addKey_getElem? {κ : Type} [Ord κ] [Std.TransOrd κ] [Std.LawfulEqOrd κ] [DecidableEq κ]
    (ids : Std.TreeMap κ StateId) (key k : κ) :
    (addKey ids key).2.2[k]? =
      if ids[key]? = none ∧ key = k then some ids.size else ids[k]? := by
  rcases hadd : addKey ids key with ⟨id, isNew, ids'⟩
  rcases addKey_eq hadd with ⟨_, rfl, hid⟩ | ⟨_, _, hnone, _, hinsert⟩
  · simp [hid]
  · simp [hinsert, hnone, @eq_comm κ k]

namespace StateTable

def key : StateTable → Fingerprint → List Nat
  | exact _, f => f.words
  | compact short _, f => [short f]

def ofList (kind : TableKind) (short : Fingerprint → Nat) (fs : List Fingerprint) : StateTable :=
  fs.foldl (fun table f => (table.add f).2.2) (empty kind short)

def CollisionFree (table : StateTable) (short : Fingerprint → Nat) : Prop :=
  ∀ f g, table.number? f ≠ none → table.number? g ≠ none → short f = short g → f = g

theorem ofList_concat (kind : TableKind) (short : Fingerprint → Nat) (fs : List Fingerprint)
    (f : Fingerprint) : ofList kind short (fs ++ [f]) = ((ofList kind short fs).add f).2.2 := by
  rw [ofList, List.foldl_append]
  rfl

theorem number?_add (table : StateTable) (f g : Fingerprint) :
    (table.add f).2.2.number? g =
      if table.number? f = none ∧ table.key f = table.key g then some table.size
      else table.number? g := by
  cases table with
  | exact ids => exact addKey_getElem? ids f.words g.words
  | compact short ids =>
    refine (addKey_getElem? ids (short f) (short g)).trans ?_
    simp only [key, number?, size, List.cons.injEq, and_true]

theorem key_add (table : StateTable) (f : Fingerprint) : (table.add f).2.2.key = table.key := by
  cases table with
  | exact ids => rfl
  | compact short ids => rfl

theorem CollisionFree.of_add {table : StateTable} {f : Fingerprint} {short : Fingerprint → Nat}
    (h : (table.add f).2.2.CollisionFree short) : table.CollisionFree short := by
  have hkept : ∀ g, table.number? g ≠ none → (table.add f).2.2.number? g ≠ none := by
    intro g hg
    obtain ⟨id, hid⟩ := Option.ne_none_iff_exists'.1 hg
    simp [number?_add_of_number? f hid]
  exact fun g k hg hk => h g k (hkept g hg) (hkept k hk)

structure Numbers (short : Fingerprint → Nat) (kind : TableKind) (order : List Fingerprint)
    (table : StateTable) : Prop where
  key : table.key = kind.key short
  size : table.size = order.length
  number : ∀ f, table.number? f = order.findIdx? (kind.same short f)

section Numbers

variable {short : Fingerprint → Nat} {kind : TableKind} {order : List Fingerprint} {table : StateTable}

theorem Numbers.answer (h : table.Numbers short kind order) (f : Fingerprint) :
    (table.add f).1 = (order.findIdx? (kind.same short f)).getD order.length ∧
    (table.add f).2.1 = !order.any (kind.same short f) := by
  rw [← List.findIdx?_isSome, ← h.number, ← h.size]
  rcases hadd : table.add f with ⟨id, isNew, table'⟩
  cases adds hadd with
  | met hid => simp [hid]
  | fresh hnone => simp [hnone]

theorem Numbers.add (h : table.Numbers short kind order) (f : Fingerprint) :
    (table.add f).2.2.Numbers short kind
      (if order.any (kind.same short f) then order else order ++ [f]) := by
  have hsize : (table.add f).2.2.size = table.size + if (table.add f).2.1 then 1 else 0 :=
    size_add rfl
  rw [(h.answer f).2, h.size] at hsize
  refine ⟨(key_add table f).trans h.key, ?_, fun g => ?_⟩
  · rw [hsize]
    cases order.any (kind.same short f) <;> simp
  rw [number?_add, h.number, h.number, h.size]
  simp only [h.key, ← TableKind.same_iff]
  cases hany : order.any (kind.same short f) with
  | true =>
    rw [← List.findIdx?_isSome] at hany
    rw [if_neg (fun hnone => by simp [hnone.1] at hany), if_pos rfl]
  | false =>
    have hnone : order.findIdx? (kind.same short f) = none := by
      rwa [← List.findIdx?_isSome, Option.isSome_eq_false_iff, Option.isNone_iff_eq_none] at hany
    rw [if_neg Bool.false_ne_true, List.findIdx?_append]
    by_cases hsame : kind.same short f g
    · have hlast : kind.same short g = kind.same short f := by
        funext k
        rw [TableKind.same, TableKind.same, TableKind.same_iff.1 hsame]
      rw [if_pos ⟨hnone, hsame⟩, hlast, hnone]
      simp [TableKind.same]
    · have hother : kind.same short g f = false := by
        simpa [TableKind.same, eq_comm] using hsame
      simp [hsame, hother]

theorem ofList_numbers (short : Fingerprint → Nat) (kind : TableKind) (fs : List Fingerprint) :
    (ofList kind short fs).Numbers short kind (kind.firsts short fs) := by
  induction fs using List.reverseRecOn with
  | nil =>
    refine ⟨?_, size_empty kind, number?_empty kind⟩
    cases kind <;> rfl
  | append_singleton fs f ih =>
    rw [ofList_concat, TableKind.firsts_concat]
    exact ih.add f

theorem number?_ofList_append {fs more : List Fingerprint} {f : Fingerprint} {id : StateId}
    (h : (ofList kind short fs).number? f = some id) :
    (ofList kind short (fs ++ more)).number? f = some id := by
  induction more using List.reverseRecOn with
  | nil => rwa [List.append_nil]
  | append_singleton more g ih =>
    rw [← List.append_assoc, ofList_concat]
    exact number?_add_of_number? g ih

end Numbers

/-- An exact and a compact table that were given the same fingerprints, and found the same ones to be
new. -/
def Matched (short : Fingerprint → Nat) (table table' : StateTable) : Prop :=
  ∃ fs, table = ofList .exact short fs ∧ table' = ofList .compact short fs ∧
    TableKind.exact.firsts short fs = TableKind.compact.firsts short fs

section Matched

variable {short : Fingerprint → Nat} {table table' : StateTable}

theorem Matched.size (h : Matched short table table') : table'.size = table.size := by
  obtain ⟨fs, rfl, rfl, hfirsts⟩ := h
  rw [(ofList_numbers short _ fs).size, (ofList_numbers short _ fs).size, hfirsts]

theorem matched_singleton (short : Fingerprint → Nat) (f : Fingerprint) :
    Matched short ((empty .exact short).add f).2.2 ((empty .compact short).add f).2.2 :=
  ⟨[f], rfl, rfl, rfl⟩

theorem findIdx?_congr {α : Type} {p q : α → Bool} {l : List α} (h : ∀ a ∈ l, p a = q a) :
    l.findIdx? p = l.findIdx? q := by
  induction l with
  | nil => rfl
  | cons a l ih =>
    rw [List.findIdx?_cons, List.findIdx?_cons, h a List.mem_cons_self,
      ih fun b hb => h b (List.mem_cons_of_mem a hb)]

theorem Matched.add (h : Matched short table table') {f : Fingerprint}
    (hfree : (table.add f).2.2.CollisionFree short) :
    (table'.add f).1 = (table.add f).1 ∧ (table'.add f).2.1 = (table.add f).2.1 ∧
      Matched short (table.add f).2.2 (table'.add f).2.2 := by
  obtain ⟨fs, rfl, rfl, hfirsts⟩ := h
  have hexact := ofList_numbers short .exact fs
  have hcompact := ofList_numbers short .compact fs
  rw [← hfirsts] at hcompact
  have hsame : ∀ g ∈ TableKind.exact.firsts short fs,
      TableKind.compact.same short f g = TableKind.exact.same short f g := by
    intro g hg
    have hknown : (ofList .exact short fs).number? g ≠ none := by
      rw [hexact.number, Ne, List.findIdx?_eq_none_iff]
      exact fun hnone => by simpa [TableKind.same] using hnone g hg
    obtain ⟨id, hid⟩ := Option.ne_none_iff_exists'.1 hknown
    have hfg := hfree f g (by simp [number?_add_self]) (by simp [number?_add_of_number? f hid])
    rw [TableKind.same, TableKind.same, decide_eq_decide]
    simp only [TableKind.key, List.cons.injEq, and_true]
    exact ⟨fun heq => by rw [hfg heq], fun heq => by rw [show f = g from congrArg Fingerprint.mk heq]⟩
  have hany : (TableKind.exact.firsts short fs).any (TableKind.compact.same short f) =
      (TableKind.exact.firsts short fs).any (TableKind.exact.same short f) := by
    rw [← List.findIdx?_isSome, ← List.findIdx?_isSome, findIdx?_congr hsame]
  refine ⟨?_, ?_, fs ++ [f], (ofList_concat _ _ _ _).symm, (ofList_concat _ _ _ _).symm, ?_⟩
  · rw [(hcompact.answer f).1, (hexact.answer f).1, findIdx?_congr hsame]
  · rw [(hcompact.answer f).2, (hexact.answer f).2, hany]
  · rw [TableKind.firsts_concat, TableKind.firsts_concat, ← hfirsts, hany]

end Matched

end StateTable

namespace Explorer

variable {x : Explorer} {short : Fingerprint → Nat}

theorem decide_table (x : Explorer) (table : StateTable) :
    Explorer.decide { x with table } = (x.decide.1, { x.decide.2 with table }) := by
  have hstate : Explorer.state { x with table } = x.state := rfl
  unfold Explorer.decide
  rw [hstate]
  dsimp only
  cases x.trail.top.agenda with
  | none => rfl
  | some agenda =>
    dsimp only
    rcases agenda.advance with ⟨_ | fresh, _ | next⟩
    · rfl
    · rfl
    · rfl
    · dsimp only
      cases scheduled x.state next.schedule with
      | error e => rfl
      | ok chosen =>
        dsimp only
        split
        · rcases openChoice x.random chosen.2.choiceId _ _ with ⟨_ | data, random⟩
          · rfl
          · rfl
        · rfl

/-- With a matching table a step is the same. -/
theorem forward_table {table' : StateTable} (h : x.table.Matched short table')
    (hfree : x.forward.2.table.CollisionFree short) :
    ∃ table'', x.forward.2.table.Matched short table'' ∧
      Explorer.forward { x with table := table' } =
        (x.forward.1, { x.forward.2 with table := table'' }) := by
  have htable : x.decide.2.table = x.table := congrArg (·.2.table) (decide_table x x.table)
  unfold Explorer.forward at hfree ⊢
  rw [decide_table x table']
  rcases hdecide : x.decide with ⟨e | move?, y⟩
  · rw [hdecide] at htable
    exact ⟨table', htable ▸ h, rfl⟩
  rw [hdecide] at htable hfree
  cases move? with
  | none => exact ⟨table', htable ▸ h, rfl⟩
  | some move =>
    have hsuccessor : Explorer.successor { y with table := table' } move = y.successor move := rfl
    dsimp only at hfree ⊢
    rw [hsuccessor]
    cases hnext : y.successor move with
    | error e => exact ⟨table', htable ▸ h, rfl⟩
    | ok next =>
      rw [hnext] at hfree
      have hy : y.table.Matched short table' := htable ▸ h
      obtain ⟨hid, hnew, hmatched⟩ := hy.add hfree
      refine ⟨_, hmatched, ?_⟩
      simp only [Explorer.enter, hid, hnew]

theorem collisionFree_of_forward (h : x.forward.2.table.CollisionFree short) :
    x.table.CollisionFree short := by
  have htable : x.decide.2.table = x.table := congrArg (·.2.table) (decide_table x x.table)
  unfold Explorer.forward at h
  rcases hdecide : x.decide with ⟨e | move?, y⟩
  · rw [hdecide] at h htable
    exact htable ▸ h
  rw [hdecide] at htable h
  rw [← htable]
  cases move? with
  | none => exact h
  | some move =>
    dsimp only at h
    cases hnext : y.successor move with
    | error e => rwa [hnext] at h
    | ok next =>
      rw [hnext] at h
      exact StateTable.CollisionFree.of_add h

end Explorer

structure Callback.Alike (c d : Callback) : Prop where
  size : d.explorer.table.size = c.explorer.table.size
  rest : d = { c with explorer := { c.explorer with table := d.explorer.table } }

/-- A listener that learns of the table no more than how many states it holds. -/
def Listener.Discreet (l : Listener) : Prop :=
  ∀ c d cs ds, c.Alike d → List.Forall₂ Callback.Alike cs ds →
    l.react d (fun _ => ds) = l.react c fun _ => cs

theorem Listener.logging_discreet : Listener.logging.Discreet := by
  intro c d cs ds h _
  rw [h.rest]
  rfl

def Delivery.Alike (d e : Delivery) : Prop :=
  e.listener = d.listener ∧ d.callback.Alike e.callback

theorem Registered.answer_alike {entry : Registered} {c d : Callback} {ds es : List Delivery}
    (hentry : entry.listener.Discreet) (hc : c.Alike d) (h : List.Forall₂ Delivery.Alike ds es) :
    entry.answer d es = entry.answer c ds := by
  refine hentry c d _ _ hc ?_
  induction h with
  | nil => exact .nil
  | @cons d e ds es hde _ ih =>
    by_cases hid : d.listener = entry.id
    · rw [List.filter_cons_of_pos (by simpa using hid),
        List.filter_cons_of_pos (by simpa [hde.1] using hid)]
      exact .cons hde.2 ih
    · rw [List.filter_cons_of_neg (by simpa using hid),
        List.filter_cons_of_neg (by simpa [hde.1] using hid)]
      exact ih

namespace Search

/-- The variants of a search with an exact table that have a compact one. -/
structure Twin (short : Fingerprint → Nat) (core : Core) (v : Variant) : Prop where
  tables : core.table.Matched short v.table
  stateSet : v.stateSet = .compact
  reportAllErrors : v.reportAllErrors = core.config.reportAllErrors
  properties : core.properties = Property.defaults
  listeners : ∀ entry ∈ core.listeners, entry.listener.Discreet
  deliveries : List.Forall₂ Delivery.Alike core.deliveries v.deliveries

abbrev Apart (short : Fingerprint → Nat) (table : StateTable) (_ : Config) (_ : List Violation) :
    Prop :=
  table.CollisionFree short

variable {short : Fingerprint → Nat} {s t : Search} {fuel n : Nat}

theorem lockstep_compact (short : Fingerprint → Nat) : Lockstep (Twin short) (Apart short) where
  forgets h := h
  steps := by
    refine ⟨fun s v hv hguard => ?_, fun s hguard => Explorer.collisionFree_of_forward hguard⟩
    obtain ⟨table', hmatched, heq⟩ := Explorer.forward_table hv.tables hguard
    refine ⟨{ v with table := table' }, { hv with tables := hmatched }, ?_⟩
    change (Except.ok (Explorer.forward { s.explorer with table := v.table }).1,
      { (s.vary v) with explorer := (Explorer.forward { s.explorer with table := v.table }).2 }) = _
    rw [heq]
    rfl
  reacts := by
    intro core v hv entry hentry c hc
    have halike : c.Alike { c with explorer := { c.explorer with table := v.table } } :=
      ⟨hv.tables.size.trans (congrArg _ hc.symm), rfl⟩
    exact ⟨Registered.answer_alike (hv.listeners entry hentry) halike hv.deliveries,
      { hv with deliveries := .cons ⟨rfl, halike⟩ hv.deliveries }⟩

theorem coupled_compact (short : Fingerprint → Nat) : Coupled (Twin short) (Apart short) :=
  ⟨lockstep_compact short, fun held => parallel_afterForward (lockstep_compact short) held
    fun _ _ hv => ⟨hv.reportAllErrors, hv.properties⟩⟩

theorem parallel_start : Parallel (Twin short) (Apart short) start := by
  refine .read (fun s => Parallel.bind (.modifySession ?_) fun _ => ?_) fun _ _ _ => rfl
  · exact fun _ _ _ h => h
  · exact parallel_frontier (lockstep_compact short) _

theorem parallel_turns (fuel : Nat) (f : Frontier) :
    Parallel (Twin short) (Apart short) (turns fuel f) := by
  induction fuel generalizing f with
  | zero => exact .pure _
  | succ fuel ih =>
    refine (parallel_turn (coupled_compact short) f).bind fun r => ?_
    cases r with
    | none => exact .pure _
    | some f => exact ih f

theorem parallel_close (ended : Bool) : Parallel (Twin short) (Apart short)
    (if ended then do return some (← finish) else return none) := by
  have hfinish : Parallel (Twin short) (Apart short) finish :=
    parallel_modifySession_bind (fun _ => rfl) ((parallel_emit (lockstep_compact short) _).bind fun _ =>
      .read (fun _ => (parallel_note _ _ _ _).bind fun _ => .pure _) fun _ _ _ => rfl)
  split
  · exact hfinish.bind fun _ => .pure _
  · exact .pure _

def begin (turnCount : Nat) : Run Bool := start >>= turns turnCount

theorem parallel_begin (n : Nat) : Parallel (Twin short) (Apart short) (begin n) :=
  parallel_start.bind (parallel_turns n)

theorem run_eq (fuel : Nat) : run fuel = begin fuel >>= fun ended =>
    if ended then return some (← finish) else return none := by
  rw [begin, bind_assoc]
  rfl

theorem parallel_run (fuel : Nat) : Parallel (Twin short) (Apart short) (run fuel) := by
  rw [run_eq]
  exact (parallel_begin fuel).bind parallel_close

theorem collisionFree_turns {f : Frontier} (hle : n ≤ fuel)
    (h : Granted (Apart short) (s.perform (turns fuel f)).2) :
    Granted (Apart short) (s.perform (turns n f)).2 := by
  induction n generalizing fuel f s with
  | zero => exact (parallel_turns fuel f).back s h
  | succ n ih =>
    cases fuel with
    | zero => cases hle
    | succ fuel =>
      rw [turns, perform_bind] at h ⊢
      rcases hturn : s.perform (turn f) with ⟨e | _ | f, t⟩
      · rwa [hturn] at h
      · rwa [hturn] at h
      · rw [hturn] at h
        exact ih (Nat.le_of_succ_le_succ hle) h

theorem collisionFree_begin (hle : n ≤ fuel)
    (h : (s.perform (run fuel)).2.explorer.table.CollisionFree short) :
    (s.perform (begin n)).2.explorer.table.CollisionFree short := by
  have hbegin : Granted (Apart short) (s.perform (begin fuel)).2 := by
    rw [run_eq, perform_bind] at h
    rcases hs : s.perform (begin fuel) with ⟨e | ended, t⟩
    · rwa [hs] at h
    · rw [hs] at h
      exact (parallel_close ended).back t h
  rw [begin, perform_bind] at hbegin ⊢
  rcases hs : s.perform start with ⟨e | f, t⟩
  · rwa [hs] at hbegin
  · rw [hs] at hbegin
    exact collisionFree_turns hle hbegin

/-- The second of two searches is as the first one, but has a compact table in place of an exact one
that was given the same fingerprints. -/
def Agrees (short : Fingerprint → Nat) (s t : Search) : Prop :=
  ∃ v, Twin short s.core v ∧ t = s.vary v

theorem Agrees.perform {α : Type} {m : Run α} (h : s.Agrees short t)
    (hm : Parallel (Twin short) (Apart short) m)
    (hfree : (s.perform m).2.explorer.table.CollisionFree short) :
    (t.perform m).1 = (s.perform m).1 ∧ (s.perform m).2.Agrees short (t.perform m).2 := by
  obtain ⟨v, hv, rfl⟩ := h
  obtain ⟨v', hv', heq⟩ := hm.same s v hv hfree
  rw [heq]
  exact ⟨rfl, v', hv', rfl⟩

theorem Agrees.checkRun (h : s.Agrees short t)
    (hfree : (s.perform (run fuel)).2.explorer.table.CollisionFree short) :
    Check.run fuel t = Check.run fuel s := by
  obtain ⟨hresult, v, _, hv⟩ := h.perform (parallel_run fuel) hfree
  have heq : t.perform (run fuel) = ((s.perform (run fuel)).1, (s.perform (run fuel)).2.vary v) :=
    Prod.ext hresult hv
  unfold Check.run
  rw [heq]
  rcases s.perform (run fuel) with ⟨e | _ | report, s'⟩
  · rfl
  · rfl
  · rfl

end Search

theorem Explorer.start_compact {p : Program} {c : Config} {hashing : Hashing} {x : Explorer}
    (h : Explorer.start p { c with stateSet := .exact } hashing = .ok x) :
    ∃ table, x.table.Matched hashing.short table ∧
      Explorer.start p { c with stateSet := .compact } hashing = .ok { x with table } := by
  unfold Explorer.start at h ⊢
  obtain ⟨model, hmodel, h⟩ := bind_eq_ok.1 h
  obtain ⟨state, hstate, h⟩ := bind_eq_ok.1 h
  obtain ⟨f, hf, h⟩ := bind_eq_ok.1 h
  cases h
  refine ⟨_, StateTable.matched_singleton _ f, ?_⟩
  have hid : ((StateTable.empty .compact hashing.short).add f).1 =
      ((StateTable.empty .exact hashing.short).add f).1 := by
    have hnumbers := fun kind => ((StateTable.ofList_numbers hashing.short kind []).answer f).1
    exact (hnumbers .compact).trans (hnumbers .exact).symm
  refine bind_eq_ok.2 ⟨model, hmodel, bind_eq_ok.2 ⟨state, hstate, bind_eq_ok.2 ⟨f, hf, ?_⟩⟩⟩
  dsimp only at hid ⊢
  rw [hid]
  rfl

namespace Search

variable {p : Program} {c : Config} {s : Search}

theorem Fresh.agrees {hashing : Hashing} {t : Search} (hs : s.Fresh p { c with stateSet := .exact })
    (hx : Explorer.start p { c with stateSet := .exact } hashing = .ok s.explorer)
    (hy : Explorer.start p { c with stateSet := .compact } hashing = .ok t.explorer)
    (ht : t = { s with explorer := t.explorer, config := { c with stateSet := .compact } })
    (hlisteners : ∀ entry ∈ s.listeners, entry.listener.Discreet) (hdeliveries : s.deliveries = []) :
    t.Fresh p { c with stateSet := .compact } ∧ s.Agrees hashing.short t := by
  obtain ⟨table, hmatched, hstart⟩ := Explorer.start_compact hx
  have hexplorer : t.explorer = { s.explorer with table } :=
    Except.ok.inj (hy.symm.trans hstart)
  rw [hexplorer] at ht
  subst ht
  have htwin : Twin hashing.short s.core ⟨table, .compact, s.config.reportAllErrors, []⟩ := by
    refine ⟨hmatched, rfl, rfl, hs.properties, hlisteners, ?_⟩
    rw [core, hdeliveries]
    exact .nil
  refine ⟨⟨⟨hashing, hstart⟩, hs.accepted, rfl, hs.properties, hs.session⟩, _, htwin, ?_⟩
  rw [vary, hs.config, hdeliveries]

/-- A search with a compact table does the same as one with an exact table, turn by turn, unless two
of the fingerprints that the latter enters into its table have one short hash; and either table
numbers fingerprints from zero by their first insertion, for good. -/
theorem compact_agrees {p : Program} {c : Config} {hashing hashing' : Hashing} {s t : Search}
    {fuel : Nat} (hs : s.Fresh p { c with stateSet := .exact })
    (hx : Explorer.start p { c with stateSet := .exact } hashing = .ok s.explorer)
    (hy : Explorer.start p { c with stateSet := .compact } hashing' = .ok t.explorer)
    (halike : hashing.Alike p c.symmetry hashing')
    (ht : t = { s with explorer := t.explorer, config := { c with stateSet := .compact } })
    (hlisteners : ∀ entry ∈ s.listeners, entry.listener.Discreet) (hdeliveries : s.deliveries = [])
    (hfree : (s.perform (run fuel)).2.explorer.table.CollisionFree hashing.short) :
    (t.Fresh p { c with stateSet := .compact } ∧ s.Agrees hashing.short t ∧
      (∀ n ≤ fuel, (t.perform (begin n)).1 = (s.perform (begin n)).1 ∧
        (s.perform (begin n)).2.Agrees hashing.short (t.perform (begin n)).2) ∧
      (t.perform (run fuel)).1 = (s.perform (run fuel)).1 ∧
      (s.perform (run fuel)).2.Agrees hashing.short (t.perform (run fuel)).2 ∧
      Check.run fuel t = Check.run fuel s) ∧
    ∀ (short : Fingerprint → Nat) (kind : TableKind) (fs more : List Fingerprint) (f : Fingerprint),
      (StateTable.ofList kind short fs).size = (kind.firsts short fs).length ∧
      (StateTable.ofList kind short fs).number? f =
        (kind.firsts short fs).findIdx? (kind.same short f) ∧
      ((StateTable.ofList kind short fs).add f).1 =
        ((kind.firsts short fs).findIdx? (kind.same short f)).getD (kind.firsts short fs).length ∧
      ((StateTable.ofList kind short fs).add f).2.1 =
        !(kind.firsts short fs).any (kind.same short f) ∧
      ∀ id, (StateTable.ofList kind short fs).number? f = some id →
        (StateTable.ofList kind short (fs ++ more)).number? f = some id := by
  constructor
  · rw [halike.start (c := { c with stateSet := .compact })] at hy
    obtain ⟨hfresh, hagrees⟩ := hs.agrees hx hy ht hlisteners hdeliveries
    obtain ⟨hresult, hend⟩ := hagrees.perform (parallel_run fuel) hfree
    exact ⟨hfresh, hagrees, fun n hn =>
      hagrees.perform (parallel_begin n) (collisionFree_begin hn hfree), hresult, hend,
      hagrees.checkRun hfree⟩
  · intro short kind fs more f
    have hnumbers := StateTable.ofList_numbers short kind fs
    exact ⟨hnumbers.size, hnumbers.number f, (hnumbers.answer f).1, (hnumbers.answer f).2,
      fun id => StateTable.number?_ofList_append⟩

/-- The short hash without the loop that turns bytes into a list. -/
theorem shortHash_eq (f : Fingerprint) :
    f.shortHash = (f.digest.data.toList.take 8).foldr (fun b n => 256 * n + b.toNat) 0 := by
  have hloop : ∀ (bytes : ByteArray) (i : Nat) (done : List UInt8),
      ByteArray.toList.loop bytes i done = done.reverse ++ bytes.data.toList.drop i := by
    intro bytes i done
    fun_induction ByteArray.toList.loop bytes i done with
    | case1 i done h ih =>
      have hi : i < bytes.data.toList.length := h
      rw [ih, List.reverse_cons, List.append_assoc, ← List.cons_getElem_drop_succ (h := hi)]
      exact congrArg (fun byte => done.reverse ++ byte :: bytes.data.toList.drop (i + 1))
        (getElem!_pos bytes.data i h)
    | case2 i done h => rw [List.drop_eq_nil_of_le (Nat.le_of_not_lt h), List.append_nil]
  rw [Fingerprint.shortHash, ByteArray.toList, hloop, List.reverse_nil, List.nil_append,
    List.drop_zero]

theorem collisionFree_of_nodup {ids : Std.TreeMap (List Nat) StateId}
    (h : (ids.keys.map fun words => (Fingerprint.mk words).shortHash).Nodup) :
    (StateTable.exact ids).CollisionFree Fingerprint.shortHash := by
  intro f g hf hg hhash
  have hmem : ∀ k : Fingerprint, (StateTable.exact ids).number? k ≠ none → k.words ∈ ids.keys := by
    intro k hk
    simpa [StateTable.number?] using hk
  exact congrArg Fingerprint.mk (List.inj_on_of_nodup_map h (hmem f hf) (hmem g hg) hhash)

def hashes? (p : Program) (c : Config) (fuel : Nat) : Option (Search × List Nat) :=
  match Check.prepare p c .error with
  | .error _ => none
  | .ok s =>
    let s := { s with listeners := [⟨0, .logging⟩], deliveries := [] }
    match (s.perform (run fuel)).2.explorer.table with
    | .exact ids => some (s, ids.keys.map fun words =>
        ((Fingerprint.mk words).digest.data.toList.take 8).foldr (fun b n => 256 * n + b.toNat) 0)
    | .compact _ _ => none

theorem hashes?_eq_some {fuel : Nat} {l : List Nat} (h : hashes? p c fuel = some (s, l))
    (hl : l.Nodup) :
    s.Fresh p c ∧ Explorer.start p c = .ok s.explorer ∧ s.listeners = [⟨0, .logging⟩] ∧
      s.deliveries = [] ∧
      (s.perform (run fuel)).2.explorer.table.CollisionFree Fingerprint.shortHash := by
  unfold hashes? at h
  split at h
  · cases h
  next s₀ hprepare =>
  dsimp only at h
  split at h
  · next ids htable =>
    cases h
    have hfresh : s₀.Fresh p c := Check.prepare_fresh hprepare
    have hstart : Explorer.start p c = .ok s₀.explorer := Check.prepare_start hprepare
    refine ⟨{ hfresh with }, hstart, rfl, rfl, ?_⟩
    simp only [← shortHash_eq] at hl
    exact htable ▸ collisionFree_of_nodup hl
  · cases h

/-- The two states of the tick have short hashes of their own. -/
theorem tick_compact : ∃ s t : Search,
    s.Fresh tick { Config.default with stateSet := .exact } ∧
    t.Fresh tick { Config.default with stateSet := .compact } ∧ s.listeners.length = 1 ∧
    (s.perform (run 10)).2.explorer.table.CollisionFree Fingerprint.shortHash ∧
    s.Agrees Fingerprint.shortHash t ∧ (t.perform (run 10)).1 = (s.perform (run 10)).1 := by
  have hhashes : (hashes? tick { Config.default with stateSet := .exact } 10).map (·.2) =
      some [16527434620177506398, 11707722437612696511] := by
    decide +kernel
  obtain ⟨⟨s, l⟩, hs, rfl⟩ := Option.map_eq_some_iff.1 hhashes
  obtain ⟨hs, hx, hlisteners, hdeliveries, hfree⟩ := hashes?_eq_some hs (by decide)
  have hdiscreet : ∀ entry ∈ s.listeners, entry.listener.Discreet := by
    simpa [hlisteners] using Listener.logging_discreet
  -- The tick makes no collection, so the compact search may order its tables in its own way.
  have halike : Hashing.usual.Alike tick .fast ⟨fun _ _ _ => [], Fingerprint.shortHash⟩ :=
    ⟨rfl, fun _ hmakes => by cases hmakes⟩
  obtain ⟨table, _, hy⟩ := Explorer.start_compact hx
  rw [← halike.start (c := { Config.default with stateSet := .compact })] at hy
  obtain ⟨⟨ht, hagrees, _, hresult, _⟩, _⟩ := compact_agrees
    (t := { s with
      explorer := { s.explorer with table }
      config := { Config.default with stateSet := .compact } })
    hs hx hy halike rfl hdiscreet hdeliveries hfree
  exact ⟨s, _, hs, ht, by rw [hlisteners]; rfl, hfree, hagrees, hresult⟩

end Search

end Interleave
