import Mathlib.Data.List.Permutation
import Mathlib.Data.Set.Finite.Lattice
import Interleave.Proofs.Explore.Genuine
import Interleave.Proofs.Fingerprint.Table

set_option autoImplicit false

namespace Interleave

def Interval.left (g : Interval) : Nat := g.length - g.progress.next

def ChoicePoint.left : ChoicePoint → Nat
  | thread g => g.items.length - g.progress.next
  | int g => g.left

def Agenda.left (a : Agenda) : Nat := a.schedule.left * (2 ^ 64 + 1) + a.data.elim 0 Interval.left

def Node.left (n : Node) : Nat := n.agenda.elim 0 Agenda.left

variable {g : Interval} {s : State}

theorem Interval.left_advance? {g' : Interval} (h : g.advance? = some g') : g'.left < g.left := by
  obtain ⟨_, hlt, rfl⟩ := Interval.advance?_eq_some.1 h
  change g.length - (g.progress.next + 1) < g.length - g.progress.next
  omega

theorem Interval.Spans.left_le {min max : Int64} (h : g.Spans min max) : g.left ≤ 2 ^ 64 := by
  have hlow := Int64.le_toInt min
  have hhigh := Int64.toInt_lt max
  have hlength := h.length
  unfold Interval.left
  omega

theorem ChoicePoint.left_advance? {schedule schedule' : ChoicePoint}
    (h : schedule.advance? = some schedule') : schedule'.left < schedule.left := by
  cases schedule with
  | thread g =>
    obtain ⟨g', hg, rfl⟩ := Option.map_eq_some_iff.1 h
    obtain ⟨_, hlt, rfl⟩ := Listed.advance?_eq_some.1 hg
    change g.items.length - (g.progress.next + 1) < g.items.length - g.progress.next
    omega
  | int g =>
    obtain ⟨g', hg, rfl⟩ := Option.map_eq_some_iff.1 h
    exact Interval.left_advance? hg

theorem Agenda.Takes.left_lt {p : Program} {a a' : Agenda} {random random' : Option Random.Source}
    {move : Move} (h : Agenda.Takes p s a random move a' random') : a'.left < a.left := by
  unfold Agenda.left
  cases h with
  | integer hdata hadvance =>
    have hless := Interval.left_advance? hadvance
    rw [hdata]
    dsimp only [Option.elim_some]
    omega
  | thread _ hadvance =>
    have hless := ChoicePoint.left_advance? hadvance
    dsimp only [Option.elim_none]
    omega
  | choice _ hadvance _ _ _ hopen =>
    have hless := ChoicePoint.left_advance? hadvance
    have hfew := (Explorer.openChoice_spans hopen).1.left_le
    dsimp only [Option.elim_some]
    omega

theorem Agenda.pending_ofState (h : s.isEnd = false) :
    ∃ a, Agenda.ofState s = some a ∧ ∃ t data, a.Pending t data := by
  obtain ⟨t, ht⟩ := List.exists_mem_of_ne_nil s.runnable fun hnil => by
    simp [State.isEnd, hnil] at h
  refine ⟨⟨.thread (.ofList "schedule" s.runnable), none⟩, ?_, t, none, ?_⟩
  · rw [Agenda.ofState, if_neg (by simp [h])]
  · exact .inr ⟨_, rfl, Listed.upcoming_ofList.2 ht⟩

instance Int64.instFinite : Finite Int64 :=
  Finite.of_injective (fun v : Int64 => v.toBitVec.toFin) fun _ _ h =>
    Int64.toBitVec_inj.1 (BitVec.toFin_inj.1 h)

def Program.statesAt (p : Program) (mode : Symmetry) (n : Nat) : Set State :=
  { s | ∃ choices fault, p.Execution mode choices s fault ∧ choices.length = n }

section Arrangements

variable {α β ι : Type} [Nonempty ι]

theorem finite_range_of_factors {F : ι → α} {G : ι → β} (hF : (Set.range F).Finite)
    (h : ∀ a b, F a = F b → G a = G b) : (Set.range G).Finite := by
  have hG : G.FactorsThrough F := fun a b => h a b
  refine (hF.image (Function.extend F G fun _ => G (Classical.arbitrary ι))).subset ?_
  rintro _ ⟨a, rfl⟩
  exact ⟨F a, ⟨a, rfl⟩, hG.extend_apply _ a⟩

omit [Nonempty ι] in
theorem finite_range_of_eq {F : ι → α} (h : ∀ a b, F a = F b) : (Set.range F).Finite := by
  refine Set.Subsingleton.finite ?_
  rintro _ ⟨a, rfl⟩ _ ⟨b, rfl⟩
  exact h a b

omit [Nonempty ι] in
theorem finite_range_of_perm {F : ι → List α} (entries : List α) (h : ∀ a, (F a).Perm entries) :
    (Set.range F).Finite := by
  refine (List.finite_toSet entries.permutations).subset ?_
  rintro _ ⟨a, rfl⟩
  exact List.mem_permutations.2 (h a)

theorem IdSet.finite_range_add (s : IdSet Handle) (k : Handle) :
    (Set.range fun arrange => (s.add k arrange).2).Finite := by
  have hmembers : (Set.range fun arrange => (s.add k arrange).2.members).Finite := by
    by_cases hk : k ∈ s.members
    · refine finite_range_of_perm s.members fun arrange => ?_
      rw [add_of_mem hk]
    · exact finite_range_of_perm (k :: s.members) fun arrange => (add_of_notMem hk).2
  have hmode : ∀ arrange, (s.add k arrange).2.mode = s.mode := by
    intro arrange
    unfold IdSet.add
    split <;> rfl
  exact finite_range_of_factors hmembers fun a b h =>
    IdSet.ext ((hmode a).trans (hmode b).symm) h

theorem IdBag.finite_range_add (b : IdBag Handle) (k : Handle) :
    (Set.range fun arrange => b.add k arrange).Finite := by
  unfold IdBag.add
  cases b.find k with
  | taken i => exact finite_range_of_eq fun _ _ => rfl
  | free i =>
    refine finite_range_of_factors (F := fun arrange : Arrangement Handle =>
      rearranged b.mode (arrange b.distinct k) (b.entries.insertIdx i (k, 1))) ?_ fun _ _ h => ?_
    · exact finite_range_of_perm _ fun arrange => rearranged_perm _ _ _
    · exact congrArg (IdBag.mk b.mode) h

theorem Program.finite_range_insertItem (item : Handle) (payload : Payload) :
    (Set.range fun arrange => insertItem arrange item payload).Finite := by
  cases payload with
  | set members =>
    exact finite_range_of_factors (members.finite_range_add item) fun _ _ h =>
      congrArg (fun members => Except.ok (Payload.set members)) h
  | bag members =>
    exact finite_range_of_factors (members.finite_range_add item) fun _ _ h =>
      congrArg (fun members => Except.ok (Payload.bag members)) h
  | fields | ints | refs => exact finite_range_of_eq fun _ _ => rfl

theorem Program.finite_range_effect (p : Program) (mode : Symmetry) (s : State) (t : ThreadId)
    (f : StackFrame) (data : Option Int64) (stmt : Stmt) :
    (Set.range fun arrange => p.effect ⟨mode, arrange⟩ s t f data stmt).Finite := by
  cases stmt with
  | insert collection item =>
    cases hfound : p.collectionAndItem s f collection item with
    | error e =>
      have hfails : ∀ change, p.changeCollection s f collection item change = .error e := by
        intro change
        rw [changeCollection, hfound]
        rfl
      refine finite_range_of_eq fun a b => ?_
      simp only [Program.effect, hfails]
    | ok found =>
      obtain ⟨h, object, member⟩ := found
      have hinsert : (Set.range fun arrange : Handle → Arrangement Handle =>
          insertItem (arrange h) member object.payload).Finite := by
        refine (finite_range_insertItem member object.payload).subset ?_
        rintro _ ⟨arrange, rfl⟩
        exact ⟨arrange h, rfl⟩
      refine finite_range_of_factors hinsert fun a b hab => ?_
      have hchange : p.changeCollection s f collection item (fun h => insertItem (a h)) =
          p.changeCollection s f collection item fun h => insertItem (b h) := by
        rw [changeCollection, changeCollection, hfound]
        change (insertItem (a h) member object.payload >>= _) =
          (insertItem (b h) member object.payload >>= _)
        rw [hab]
      simp only [Program.effect, hchange]
  | assign | remove | lock | unlock | assert | ifGoto | goto | call | «return» | yield =>
    exact finite_range_of_eq fun _ _ => rfl

theorem Program.finite_range_execute (p : Program) (mode : Symmetry) (s : State) (t : ThreadId)
    (data : Option Int64) :
    (Set.range fun arrange => p.execute ⟨mode, arrange⟩ s t data).Finite := by
  have hperform : (Set.range fun arrange => p.perform ⟨mode, arrange⟩ s t data).Finite := by
    unfold Program.perform
    split
    · exact finite_range_of_eq fun _ _ => rfl
    · next f _ =>
      split
      · exact finite_range_of_eq fun _ _ => rfl
      · next stmt _ => exact p.finite_range_effect mode _ t f data stmt.value
  refine finite_range_of_factors hperform fun a b hab => ?_
  unfold Program.execute
  rw [hab]

end Arrangements

theorem Program.finite_successors (p : Program) (mode : Symmetry) (s : State) :
    { s' | ∃ t data fault, p.Step mode s t data s' fault }.Finite := by
  have hone : ∀ t data,
      { s' | ∃ fault arrange, p.execute ⟨mode, arrange⟩ s t data = .ok (s', fault) }.Finite := by
    intro t data
    refine ((p.finite_range_execute mode s t data).image fun r => r.toOption.elim s (·.1)).subset ?_
    rintro s' ⟨fault, arrange, hs'⟩
    exact ⟨_, ⟨arrange, hs'⟩, rfl⟩
  have hthreads : { t | t ∈ s.runnable }.Finite := List.finite_toSet _
  refine (hthreads.biUnion fun t _ => Set.finite_iUnion (hone t)).subset ?_
  rintro s' ⟨t, data, fault, hstep⟩
  simp only [Set.mem_iUnion]
  exact ⟨t, hstep.runnable, data, fault, hstep.executed⟩

theorem Program.finite_statesAt (p : Program) (mode : Symmetry) (n : Nat) :
    (p.statesAt mode n).Finite := by
  induction n with
  | zero =>
    have hinitial : { s | p.initialState = .ok s }.Finite :=
      Set.Subsingleton.finite fun s hs t ht => Except.ok.inj (hs.symm.trans ht)
    refine hinitial.subset ?_
    rintro s ⟨choices, fault, hs, hlength⟩
    cases hs with
    | start h => exact h
    | step => simp at hlength
  | succ n ih =>
    refine (ih.biUnion fun s _ => p.finite_successors mode s).subset ?_
    rintro s' ⟨choices, fault, hs', hlength⟩
    cases hs' with
    | start => simp at hlength
    | @step choices s _ last _ t data hs hstep =>
      simp only [Set.mem_iUnion]
      exact ⟨s, ⟨choices, last, hs, by simpa using hlength⟩, t, data, fault, hstep⟩

def Model.fingerprints (m : Model) (limit : Option Nat) : Set Fingerprint :=
  { f | ∃ choices s fault, m.program.Execution m.symmetry choices s fault ∧
    (∀ d ∈ limit, choices.length ≤ d) ∧ m.fingerprint s = .ok f }

theorem Model.finite_fingerprints (m : Model) (limit : Nat) :
    (m.fingerprints (some limit)).Finite := by
  have hone : ∀ s, { f | m.fingerprint s = .ok f }.Finite := fun s =>
    Set.Subsingleton.finite fun f hf g hg => Except.ok.inj (hf.symm.trans hg)
  have hall : (⋃ n ∈ { n | n ≤ limit }, ⋃ s ∈ m.program.statesAt m.symmetry n,
      { f | m.fingerprint s = .ok f }).Finite :=
    (Set.finite_le_nat limit).biUnion fun n _ =>
      (m.program.finite_statesAt m.symmetry n).biUnion fun s _ => hone s
  refine hall.subset ?_
  rintro f ⟨choices, s, fault, hs, hlength, hf⟩
  simp only [Set.mem_iUnion]
  exact ⟨choices.length, hlength limit rfl, s, ⟨choices, fault, hs, rfl⟩, hf⟩

end Interleave
