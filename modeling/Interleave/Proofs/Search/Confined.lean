import Mathlib.Data.Finset.Lattice.Fold
import Mathlib.Order.Lattice.Nat
import Interleave.Proofs.Explore.Finite
import Interleave.Proofs.Fingerprint.Seen
import Interleave.Proofs.Search.Exhaustive

set_option autoImplicit false

namespace Interleave

structure Trail.Confined (m : Model) (reach : Finset Fingerprint) (t : Trail) : Prop where
  genuine : t.Genuine m.program m.symmetry
  printed : ∀ n ∈ t.chain, ∃ f ∈ reach, m.fingerprint n.state = .ok f

structure Explorer.Confined (m : Model) (reach : Finset Fingerprint) (x : Explorer) : Prop where
  model : x.model = m
  trail : x.trail.Confined m reach
  bound : ∀ f id, x.table.number? f = some id → id < x.table.size
  entered : ∃ met ⊆ reach, x.table.size ≤ met.card ∧ ∀ f ∈ met, x.table.Holds f

section Confined

variable {m : Model} {reach : Finset Fingerprint} {x x' : Explorer}

section

variable (h : x.Confined m reach)

include h

theorem Explorer.Confined.genuine : x.Genuine m.program m.symmetry :=
  ⟨congrArg Model.program h.model, congrArg Model.symmetry h.model, h.trail.genuine⟩

theorem Explorer.Confined.size_le : x.table.size ≤ reach.card := by
  obtain ⟨met, hmet, hsize, _⟩ := h.entered
  exact hsize.trans (Finset.card_le_card hmet)

omit h in
theorem Trail.Confined.of_states {t t' : Trail} (h : t.Confined m reach)
    (hgenuine : t'.Genuine m.program m.symmetry)
    (hstates : ∀ n' ∈ t'.chain, ∃ n ∈ t.chain, n'.state = n.state) : t'.Confined m reach := by
  refine ⟨hgenuine, fun n' hn' => ?_⟩
  obtain ⟨n, hn, hsame⟩ := hstates n' hn'
  rw [hsame]
  exact h.printed n hn

theorem Explorer.Confined.of_trail (hmodel : x'.model = x.model) (htable : x'.table = x.table)
    (htrail : x'.trail.Confined m reach) : x'.Confined m reach := by
  refine ⟨hmodel.trans h.model, htrail, ?_, ?_⟩
  · rw [htable]
    exact h.bound
  · rw [htable]
    exact h.entered

theorem Explorer.Confined.setAgenda {agenda : Option Agenda}
    (hagenda : ∀ a, agenda = some a → a.Fits m.program x.state) :
    (x.setAgenda agenda).Confined m reach := by
  refine h.of_trail rfl rfl (h.trail.of_states (h.trail.genuine.setAgenda hagenda) ?_)
  intro n' hn'
  rcases List.mem_cons.1 hn' with rfl | hn'
  · exact ⟨x.trail.top, List.mem_cons_self, rfl⟩
  · exact ⟨n', List.mem_cons_of_mem _ hn', rfl⟩

theorem Explorer.Confined.shuffleSchedule (source : Random.Source) :
    (x.shuffleSchedule source).1.Confined m reach := by
  have hgenuine := shuffleSchedule_genuine h.genuine source
  unfold Explorer.shuffleSchedule at hgenuine ⊢
  split at hgenuine
  · exact h
  · exact h.setAgenda hgenuine.trail.top.agenda

theorem Explorer.Confined.backtrack? (hback : x.backtrack? = some x') : x'.Confined m reach := by
  obtain ⟨hchain, htable⟩ := chain_of_backtrack? hback
  have hgenuine := backtrack?_genuine h.genuine hback
  obtain ⟨trail, _, rfl⟩ := Option.map_eq_some_iff.1 hback
  refine h.of_trail rfl htable (h.trail.of_states hgenuine.trail ?_)
  intro n hn
  rw [hchain] at hn
  exact ⟨n, List.mem_cons_of_mem _ hn, rfl⟩

end

theorem Search.Tidied.confined {held : List Trail} (h : Search.Tidied x held x')
    (hx : x.Confined m reach) : x'.Confined m reach := by
  have hgenuine := h.genuine hx.genuine
  rcases h with rfl | rfl
  · exact hx
  refine hx.of_trail rfl rfl ⟨hgenuine.trail, ?_⟩
  intro n' hn'
  change n' ∈ ((x.trail.collect held).2).chain at hn'
  rw [Trail.collect_eq] at hn'
  obtain ⟨n, hn, rfl⟩ : ∃ n ∈ x.trail.chain, n.tidy held = n' := List.mem_map.1 hn'
  obtain ⟨f, hf, hprint⟩ := hx.trail.printed n hn
  refine ⟨f, hf, ?_⟩
  unfold Node.tidy
  split
  · exact hprint
  · have hcoherent := hx.genuine.coherent n hn
    have hsame := (hcoherent.residue.collect hcoherent.settled).fingerprint_eq m.policy m.masks
    exact hsame.symm.trans hprint

theorem StateTable.Adds.entered {table table' : StateTable} {f : Fingerprint} {id : StateId}
    {isNew : Bool} (h : table.Adds f id isNew table') (hf : f ∈ reach)
    (hbound : ∀ g i, table.number? g = some i → i < table.size)
    (hentered : ∃ met ⊆ reach, table.size ≤ met.card ∧ ∀ g ∈ met, table.Holds g) :
    (∀ g i, table'.number? g = some i → i < table'.size) ∧
      ∃ met ⊆ reach, table'.size ≤ met.card ∧ ∀ g ∈ met, table'.Holds g := by
  cases h with
  | met => exact ⟨hbound, hentered⟩
  | fresh hnone hsize hnumber hkept honly =>
    refine ⟨fun g i hg => Nat.lt_of_lt_of_eq ?_ hsize.symm, ?_⟩
    · rcases honly g i hg with hold | rfl
      · exact Nat.lt_succ_of_lt (hbound g i hold)
      · exact Nat.lt_succ_self _
    · obtain ⟨met, hmet, hcard, hholds⟩ := hentered
      have hout : f ∉ met := fun hin => by
        obtain ⟨id, hid⟩ := hholds f hin
        cases hnone.symm.trans hid
      refine ⟨Finset.cons f met hout, ?_, ?_, ?_⟩
      · intro g hg
        rcases Finset.mem_cons.1 hg with rfl | hold
        · exact hf
        · exact hmet hold
      · rw [Finset.card_cons]
        omega
      · intro g hg
        rcases Finset.mem_cons.1 hg with rfl | hold
        · exact ⟨_, hnumber⟩
        · obtain ⟨id, hid⟩ := hholds g hold
          exact ⟨id, hkept g id hid⟩

theorem Explorer.Starts.confined {p : Program} {c : Config} {s₀ : State} {f : Fingerprint}
    (h : x.Starts p c s₀ f) {limit : Option Nat} (hreach : x.model.fingerprints limit ⊆ ↑reach) :
    x.Confined x.model reach := by
  have hgenuine := h.genuine
  have htrail : x.trail.Genuine x.model.program x.model.symmetry := by
    rw [hgenuine.program, hgenuine.symmetry]
    exact hgenuine.trail
  have hf : f ∈ reach := by
    refine hreach ⟨[], s₀, none, .start ?_, fun d _ => Nat.zero_le d, h.fingerprint⟩
    rw [hgenuine.program]
    exact h.initial
  have hprinted : ∀ n ∈ x.trail.chain, ∃ f ∈ reach, x.model.fingerprint n.state = .ok f := by
    intro n hn
    rw [Trail.chain, h.below, List.mem_singleton] at hn
    rw [hn, h.state]
    exact ⟨f, hf, h.fingerprint⟩
  obtain ⟨_, hadded⟩ := h.added
  obtain ⟨hbound, hentered⟩ := (StateTable.adds hadded).entered hf
    (fun g i hg => by cases (StateTable.number?_empty c.stateSet g).symm.trans hg)
    ⟨∅, by simp, by simp [StateTable.size_empty], by simp⟩
  exact ⟨rfl, ⟨htrail, hprinted⟩, hbound, hentered⟩

variable {limit : Option Nat} {a a' : Agenda} {move : Move} {n : Node} {f : Fingerprint}

section

variable (h : x.Advances a move a' n f x')

include h

theorem Explorer.Advances.mem_fingerprints (hx : x.Genuine m.program m.symmetry)
    (hmodel : x.model = m) (hdepth : ∀ d ∈ limit, x.depth < d) : f ∈ m.fingerprints limit := by
  obtain ⟨r, htrace, hresidue⟩ := (h.reached hx).origin
  have hprint := h.fingerprint
  rw [hmodel] at hprint
  refine ⟨_, r, n.fault, htrace.execution, fun d hd => ?_, ?_⟩
  · rw [List.length_map, List.length_append, h.shown, hx.trail.length_path]
    exact hdepth d hd
  · exact (hresidue.fingerprint_eq m.policy m.masks).trans hprint

theorem Explorer.Confined.advances (hx : x.Confined m reach)
    (hgenuine : x'.Genuine m.program m.symmetry) (hf : f ∈ reach) : x'.Confined m reach := by
  have hprint := h.fingerprint
  rw [hx.model] at hprint
  have htrail : x'.trail.Confined m reach := by
    refine ⟨hgenuine.trail, fun k hk => ?_⟩
    rw [h.trail] at hk
    rcases List.mem_cons.1 hk with rfl | hk
    · exact ⟨f, hf, hprint⟩
    · rcases List.mem_cons.1 hk with rfl | hk
      · exact hx.trail.printed x.trail.top List.mem_cons_self
      · exact hx.trail.printed k (List.mem_cons_of_mem _ hk)
  obtain ⟨hbound, hentered⟩ := (StateTable.adds h.added).entered hf hx.bound hx.entered
  exact ⟨h.model.trans hx.model, htrail, hbound, hentered⟩

omit h in
theorem Explorer.Confined.forward (hreach : m.fingerprints limit ⊆ ↑reach)
    (hx : x.Confined m reach) (hdepth : ∀ d ∈ limit, x.depth < d) {moved : Bool}
    (h : x.forward = (.ok moved, x')) : x'.Confined m reach := by
  have hgenuine := forward_genuine hx.genuine h
  cases moved with
  | true =>
    obtain ⟨a, move, a', n, f, hstep⟩ := forward_true h
    exact hx.advances hstep hgenuine (hreach (hstep.mem_fingerprints hx.genuine hx.model hdepth))
  | false =>
    obtain ⟨agenda, rfl, _⟩ := decide_none (forward_false h)
    exact hx.setAgenda hgenuine.trail.top.agenda

theorem Explorer.Advances.numbered (hx : x'.Confined m reach) :
    x'.stateId < x'.table.size ∧
      (x'.isNew = true ∧ x'.table.size = x.table.size + 1 ∨
        x'.isNew = false ∧ x'.table = x.table) := by
  have hid : x'.stateId = n.stateId := by
    unfold Explorer.stateId
    rw [h.trail]
  have hbound := hx.bound
  have hadds := StateTable.adds h.added
  rw [hid]
  generalize n.stateId = id at hadds
  generalize x'.isNew = isNew at hadds
  generalize x'.table = table at hadds hbound
  cases hadds with
  | met hnumber => exact ⟨hbound f _ hnumber, .inr ⟨rfl, rfl⟩⟩
  | fresh _ hsize => exact ⟨Nat.lt_of_lt_of_eq (Nat.lt_succ_self _) hsize.symm, .inl ⟨rfl, hsize⟩⟩

theorem Explorer.Advances.left_lt : a'.left < x.trail.top.left := by
  unfold Node.left
  rw [h.agenda]
  exact h.takes.left_lt

end

theorem State.head_of_fingerprint {policy : SerializerPolicy} {masks : Masks} {s : State}
    (h : s.fingerprint policy masks = .ok f) : f.words.head? = some s.threads.length := by
  unfold State.fingerprint at h
  obtain ⟨⟨words, found⟩, hwords, h⟩ := bind_eq_ok.1 h
  cases h
  unfold Walk.stateWords at hwords
  rw [StateT.run_bind] at hwords
  obtain ⟨⟨threads, met⟩, _, hwords⟩ := bind_eq_ok.1 hwords
  -- either kind of fingerprint starts with the number of threads
  cases hkind : policy.kind with
  | full =>
    simp only [hkind, StateT.run_bind] at hwords
    obtain ⟨statics, _, hwords⟩ := bind_eq_ok.1 hwords
    obtain ⟨objects, _, hwords⟩ := bind_eq_ok.1 hwords
    cases hwords
    rfl
  | threadReachable =>
    simp only [hkind, StateT.run_bind] at hwords
    obtain ⟨objects, _, hwords⟩ := bind_eq_ok.1 hwords
    obtain ⟨statics, _, hwords⟩ := bind_eq_ok.1 hwords
    cases hwords
    rfl

def width (reach : Finset Fingerprint) : Nat := reach.sup fun f => f.words.headD 0

theorem Explorer.Confined.lt_width (h : x.Confined m reach) {t : ThreadId}
    (ht : t ∈ x.state.runnable) : t < width reach := by
  obtain ⟨f, hf, hprint⟩ := h.trail.printed x.trail.top List.mem_cons_self
  obtain ⟨thread, hthread, _⟩ := mem_runnable.1 ht
  have hlt := (List.getElem?_eq_some_iff.1 hthread).1
  have hhead := State.head_of_fingerprint hprint
  calc t
    _ < x.state.threads.length := hlt
    _ = f.words.headD 0 := by rw [List.headD_eq_head?_getD, hhead]; rfl
    _ ≤ width reach := Finset.le_sup (f := fun f : Fingerprint => f.words.headD 0) hf

end Confined

end Interleave
