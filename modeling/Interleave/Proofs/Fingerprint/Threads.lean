import Interleave.Proofs.Fingerprint.Exact
import Interleave.Proofs.Fingerprint.Invariance
import Interleave.Proofs.Machine.Effects

set_option autoImplicit false

namespace Interleave

def Program.CollectionFree (p : Program) : Prop :=
  ∀ m ∈ p.methods, ∀ stmt ∈ m.body, stmt.value.makesCollection = false

section CollectionFree

variable {p : Program} {mode : Symmetry} {s : State} {fault : Option Uncaught}
  {choices : List (ThreadId × Option Int64)}

theorem Program.CollectionFree.made (h : p.CollectionFree) (hp : p.Sound) {m : MethodDecl}
    (hm : m ∈ p.methods) {stmt : Located Stmt} (hstmt : stmt ∈ m.body) {k : ClassId}
    (hk : stmt.value.Makes k) :
    ∃ decl, p.classes[k]? = some decl ∧ decl.kind ≠ .set ∧ decl.kind ≠ .bag := by
  have hfree := h m hm stmt hstmt
  have hsound := hp.bodies m hm stmt hstmt
  have hat : ∀ {kind : ClassKind}, kind.At p.classes k → kind ≠ .set → kind ≠ .bag →
      ∃ decl, p.classes[k]? = some decl ∧ decl.kind ≠ .set ∧ decl.kind ≠ .bag := by
    rintro _ ⟨decl, hdecl, rfl⟩ hset hbag
    exact ⟨decl, hdecl, hset, hbag⟩
  generalize stmt.value = value at hfree hsound hk
  cases value with
  | assign target value =>
    cases value with
    | expr | choose => cases hk
    | new id =>
      obtain rfl : k = id := hk
      exact hat hsound.2 nofun nofun
    | newIntArray =>
      obtain rfl : k = intArrayClass := hk
      exact hat hp.intArray nofun nofun
    | newRefArray =>
      obtain rfl : k = refArrayClass := hk
      exact hat hp.refArray nofun nofun
    | newSet | newBag => cases hfree
  | _ => cases hk

theorem Program.Execution.listing_eq_nil (h : p.Execution mode choices s fault) (hp : p.Sound)
    (hfree : p.CollectionFree) {a : Handle} {o : Object} (ho : s.heap.get? a = some o) :
    o.payload.listing = [] := by
  have hclasses : s.ClassesWithin fun k =>
      ∃ decl, p.classes[k]? = some decl ∧ decl.kind ≠ .set ∧ decl.kind ≠ .bag :=
    h.classesWithin fun m hm stmt hstmt k hk => hfree.made hp hm hstmt hk
  obtain ⟨decl, hdecl, hset, hbag⟩ := hclasses a o ho
  obtain ⟨decl', hdecl', htyped⟩ := (h.wellFormed hp).objects a o ho
  cases hdecl.symm.trans hdecl'
  generalize o.payload = payload at htyped
  cases htyped with
  | fields | ints | refs => rfl
  | set hkind => exact absurd hkind hset
  | bag hkind => exact absurd hkind hbag

end CollectionFree

/-- A state without its statics. What it spans is what the threads lead to. -/
def State.threadPart (s : State) : State := { s with statics := [] }

def State.threadPairs (s : State) (R : Pairing) : Pairing := R.within s.threadPart.Spans

/-- Static values that are the same to threads: they agree up to a pairing, or both refer to objects
that no thread leads to. -/
inductive Value.SameToThreads (R : Pairing) (s t : State) : Value → Value → Prop where
  | paired {v w : Value} (h : v.Matches R w) : SameToThreads R s t v w
  | beyond {a b : Handle} (ha : ¬ s.threadPart.Spans a) (hb : ¬ t.threadPart.Spans b) :
      SameToThreads R s t (.ref a) (.ref b)

structure StaticRecord.SameToThreads (R : Pairing) (s t : State) (r q : StaticRecord) : Prop where
  owner : r.owner = q.owner
  initialized : r.initialized = q.initialized
  fields : List.Forall₂ (Value.SameToThreads R s t) r.fields q.fields
  monitor : r.monitor = q.monitor

/-- States that are the same to threads, up to a pairing. Nothing is said of objects that only statics
lead to. -/
structure State.SameToThreads (s : State) (R : Pairing) (t : State) : Prop where
  threads : s.threadPart.Mirrors R t.threadPart
  statics : List.Forall₂ (StaticRecord.SameToThreads R s t) s.statics t.statics

namespace Walk

theorem reference_unpaired {R : Pairing} {heap heap' : Heap} {a b : Handle} (ha : ∀ c, ¬ R a c)
    (hb : ∀ c, ¬ R c b) (hlive : heap.isLive a = heap'.isLive b) :
    Alike (· = heap.live R) (reference heap false a) (reference heap' false b) := by
  refine Alike.get ?_
  rintro _ found found' rfl hmet
  have hnone : number? found a = none := number?_eq_none.2 fun hmem => by
    obtain ⟨c, _, _, hac⟩ := forall₂_exists hmet.pairs hmem
    exact ha c hac
  have hnone' : number? found' b = none := number?_eq_none.2 fun hmem => by
    obtain ⟨c, _, _, hcb⟩ := forall₂_exists hmet.pairs.flip hmem
    exact hb c hcb
  rw [hnone, hnone', hlive]
  dsimp only
  split
  · exact .ok rfl hmet
  · exact .ok rfl hmet

end Walk

section States

variable {R : Pairing} {s t : State}

theorem Value.SameToThreads.item_alike {v w : Value} (h : v.SameToThreads R s t w)
    (hthreads : s.threadPart.Mirrors R t.threadPart) (masks : Masks)
    (hv : ∀ a, v = .ref a → s.heap.isLive a = true) (hw : ∀ b, w = .ref b → t.heap.isLive b = true) :
    v.isReference = w.isReference ∧ Walk.Alike (· = s.heap.live (s.threadPairs R))
      (Walk.write s.heap false v.item) (Walk.write t.heap false w.item) := by
  cases h with
  | paired hvw =>
    cases hvw with
    | int | null => exact ⟨rfl, Walk.Alike.pure _⟩
    | @ref a b hab =>
      refine ⟨rfl, ?_⟩
      -- The pairing may reach further than the threads do.
      by_cases ha : s.threadPart.Spans a
      · exact Walk.write_alike (hthreads.within_spans.looksAlike masks).heap false (.mention ⟨ha, hab⟩)
      · refine Walk.reference_unpaired (fun _ hac => ha hac.1) ?_ (hthreads.heap.isLive hab)
        rintro c ⟨hc, hcb⟩
        exact ha (hthreads.heap.oneToOne.1 hab hcb ▸ hc)
  | @beyond a b ha hb =>
    refine ⟨rfl, Walk.reference_unpaired (fun _ hac => ha hac.1)
      (fun c hcb => hb (hthreads.spans_right hcb.1 hcb.2)) ?_⟩
    rw [hv a rfl, hw b rfl]

theorem State.SameToThreads.allStatics_alike (h : s.SameToThreads R t)
    (hs : ∀ r ∈ s.statics, ∀ a, .ref a ∈ r.fields → s.heap.isLive a = true)
    (ht : ∀ q ∈ t.statics, ∀ b, .ref b ∈ q.fields → t.heap.isLive b = true) (masks : Masks) :
    Walk.Alike (· = s.heap.live (s.threadPairs R))
      (Walk.each (Walk.staticWords masks s.heap false) s.statics)
      (Walk.each (Walk.staticWords masks t.heap false) t.statics) := by
  have hrecords : List.Forall₂ (fun r q => r ∈ s.statics ∧ q ∈ t.statics ∧
      StaticRecord.SameToThreads R s t r q) s.statics t.statics :=
    forall₂_keep h.statics fun _ hr _ hq hrq => ⟨hr, hq, hrq⟩
  refine Walk.Alike.each hrecords fun r q ⟨hr, hq, hrq⟩ => ?_
  have hvalues : List.Forall₂ (fun v w => v ∈ r.fields ∧ w ∈ q.fields ∧
      v.SameToThreads R s t w) r.fields q.fields :=
    forall₂_keep hrq.fields fun _ hv _ hw hvw => ⟨hv, hw, hvw⟩
  refine Walk.staticWords_alike_of hrq.owner hrq.initialized hrq.monitor fun mask _ => ?_
  refine List.rel_map ?_ (FieldMask.emitted_forall₂ fun slot _ => forall₂_getElem? hvalues slot)
  rintro ⟨slot, v⟩ ⟨_, w⟩ ⟨rfl, hv, hw, hvw⟩
  obtain ⟨hreference, halike⟩ := hvw.item_alike h.threads masks
    (fun a ha => hs r hr a (ha ▸ hv)) fun b hb => ht q hq b (hb ▸ hw)
  dsimp only [Value.slotItem]
  rw [hreference]
  split
  · exact halike
  · exact Walk.Alike.pure 0

/-- States that are the same to threads have the same fingerprint from threads, if static references
lead somewhere and there is nothing to order. -/
theorem State.SameToThreads.fingerprint_eq (h : s.SameToThreads R t)
    (hs : ∀ r ∈ s.statics, ∀ a, .ref a ∈ r.fields → s.heap.isLive a = true)
    (ht : ∀ q ∈ t.statics, ∀ b, .ref b ∈ q.fields → t.heap.isLive b = true)
    (hempty : ∀ a o, s.heap.get? a = some o → o.payload.listing = []) (includePc : Bool)
    (masks : Masks) : s.fingerprint ⟨.threadReachable, includePc⟩ masks =
      t.fingerprint ⟨.threadReachable, includePc⟩ masks := by
  have hmirrors : ∀ S, S = s.threadPairs R → s.threadPart.Mirrors S t.threadPart := by
    rintro _ rfl
    exact h.threads.within_spans
  have horder : OrderedAlike ⟨.threadReachable, includePc⟩ masks (· = s.threadPairs R)
      s.threadPart t.threadPart := orderedAlike_of_empty hmirrors hempty
  have hstatics := Walk.Alike.cut (P := (s.heap.isLive · = true))
    (F := (· = s.threadPairs R)) fun S hS => hS ▸ h.allStatics_alike hs ht masks
  -- Until the statics come, the walks are those over the states without statics.
  refine fingerprint_eq_of_agrees (F := Cut (s.heap.isLive · = true) (· = s.threadPairs R)) ?_
  have hlength : s.threads.length = t.threads.length := h.threads.threads.length_eq
  unfold Walk.stateWords
  rw [hlength, h.statics.length_eq]
  have halike := fun S hS => (hmirrors S hS).looksAlike masks
  refine (Walk.allThreads_alike halike _ _ [] [] ⟨_, rfl, rfl⟩ ⟨.nil, List.nodup_nil⟩).bind
    fun threads S found found' hrun hS hmet => ?_
  obtain ⟨_, rfl, rfl⟩ := hS
  refine (Walk.expand_alike halike horder rfl (.threads rfl hrun) hmet (Nat.le_add_left _ 0)
    (Nat.le_add_left _ 0)).bind fun objects S found found' _ hS hmet => ?_
  exact (hstatics.bind fun statics => Walk.Alike.pure _) S found found' hS hmet

end States

variable {value : Int64}

/-- Following the heap from threads only is coarser than following it from statics too. In a program
without filters and without collections, states that executions reach have both fingerprints. If the
full ones are equal, so are those from threads; and those from threads are equal for states that are
the same to threads, whatever the objects contain that only statics lead to. -/
theorem threads_coarser {source path : String} {p : Program}
    (hp : Program.ofSource source path = .ok p) (hplain : p.Unfiltered) (hfree : p.CollectionFree)
    {masks : Masks} (hmasks : Masks.ofProgram p ⟨[], []⟩ = .ok masks) {mode mode' : Symmetry}
    {choices choices' : List (ThreadId × Option Int64)} {fault fault' : Option Uncaught}
    {s t : State} (hs : p.Execution mode choices s fault) (ht : p.Execution mode' choices' t fault') :
    ∃ f f' g g', s.fingerprint ⟨.full, true⟩ masks = .ok f ∧
      t.fingerprint ⟨.full, true⟩ masks = .ok f' ∧
      s.fingerprint ⟨.threadReachable, true⟩ masks = .ok g ∧
      t.fingerprint ⟨.threadReachable, true⟩ masks = .ok g' ∧
      (f.words = f'.words → g.words = g'.words) ∧
      ∀ R, s.SameToThreads R t → g.words = g'.words := by
  have hsound := ofSource_sound hp
  have hws := hs.wellFormed hsound
  have hwt := ht.wellFormed hsound
  have hempty := fun a o ho => hs.listing_eq_nil hsound hfree (a := a) (o := o) ho
  have hcover := Masks.ofProgram_cover hmasks
  obtain ⟨f, hf⟩ := fingerprint_ok hcover ⟨.full, true⟩ hws.toTyped
  obtain ⟨f', hf'⟩ := fingerprint_ok hcover ⟨.full, true⟩ hwt.toTyped
  obtain ⟨g, hg⟩ := fingerprint_ok hcover ⟨.threadReachable, true⟩ hws.toTyped
  obtain ⟨g', hg'⟩ := fingerprint_ok hcover ⟨.threadReachable, true⟩ hwt.toTyped
  have hsame : s.fingerprint ⟨.threadReachable, true⟩ masks =
      t.fingerprint ⟨.threadReachable, true⟩ masks → g.words = g'.words := fun heq =>
    congrArg Fingerprint.words (Except.ok.inj (hg.symm.trans (heq.trans hg')))
  refine ⟨f, f', g, g', hf, hf', hg, hg', fun hwords => hsame ?_, fun R hR => hsame ?_⟩
  · have hff : f = f' := congrArg Fingerprint.mk hwords
    obtain ⟨R, hcorr⟩ := fingerprint_corresponds ⟨hplain, hmasks⟩ rfl rfl hws hwt hf (hff ▸ hf')
    refine fingerprint_congr hcorr (orderedAlike_of_empty ?_ hempty)
    rintro _ rfl
    exact hcorr.mirrors
  · refine hR.fingerprint_eq ?_ ?_ hempty true masks
    · exact fun r hr a ha => Heap.isLive_iff.2 (hws.live (.of_static hr ha))
    · exact fun q hq b hb => Heap.isLive_iff.2 (hwt.live (.of_static hq hb))

/-- A thread that keeps one cell on the desk and puts a chosen number into another, which only a
static leads to. -/
def vault : Program where
  path := "vault"
  classes := ⟨"Main", .plain, [], [⟨"box", .ref, false, 0⟩, ⟨"desk", .ref, false, 0⟩]⟩ ::
    builtinClasses.tail ++ [⟨"Cell", .plain, [⟨"value", .int, false, 0⟩], []⟩]
  methods := [⟨"t", false, ["c", "k"],
    [⟨.assign (.localVar 0) (.new 5), .onLine 7 3 14⟩,
      ⟨.assign (.staticVar 0 1) (.expr (.localVar 0)), .onLine 8 3 10⟩,
      ⟨.assign (.staticVar 0 0) (.new 5), .onLine 9 3 16⟩,
      ⟨.assign (.localVar 1) (.choose 0 1), .onLine 10 3 18⟩,
      ⟨.assign (.field (.staticVar 0 0) "value") (.expr (.localVar 1)), .onLine 11 3 15⟩,
      ⟨.assign (.localVar 1) (.expr (.int 0)), .onLine 12 3 7⟩, ⟨.yield, .onLine 13 3 7⟩],
    ["c = new Cell", "desk = c", "box = new Cell", "k = choose(0, 1)", "box.value = k", "k = 0",
      "yield"]⟩]
  threads := [⟨"t", 0⟩]
  invariants := []

theorem vault_source : Program.ofSource
    ("static ref box\nstatic ref desk\nclass Cell \x7b\n  int value\n\x7d\nthread t \x7b\n" ++
      "  c = new Cell\n  desk = c\n  box = new Cell\n  k = choose(0, 1)\n  box.value = k\n" ++
      "  k = 0\n  yield\n\x7d\n") "vault" = .ok vault := by
  decide +kernel

theorem vault_unfiltered : vault.Unfiltered := by
  constructor <;> decide

theorem vault_collectionFree : vault.CollectionFree := by
  unfold Program.CollectionFree
  decide

def vaultState (value : Int64) : State where
  threads := [⟨"t", .runnable, [⟨0, 6, [.ref 0, .int 0]⟩], none⟩]
  statics := [⟨0, true, [.ref 1, .ref 0], .free⟩, ⟨5, true, [], .free⟩]
  heap := ⟨[some ⟨5, .free, .fields [.int 0]⟩, some ⟨5, .free, .fields [.int value]⟩]⟩

theorem vault_execution (h : value = 0 ∨ value = 1) : vault.Execution .fast
    ([] ++ [(0, none)] ++ [(0, none)] ++ [(0, none)] ++ [(0, some value)] ++ [(0, none)] ++
      [(0, none)]) (vaultState value) none := by
  rcases h with rfl | rfl
  all_goals
    refine .step (.step (.step (.step (.step (.step (.start rfl)
      ⟨?_, ⟨_, _, rfl, rfl, rfl⟩, fun _ _ _ => [], rfl⟩)
      ⟨?_, ⟨_, _, rfl, rfl, rfl⟩, fun _ _ _ => [], rfl⟩)
      ⟨?_, ⟨_, _, rfl, rfl, rfl⟩, fun _ _ _ => [], rfl⟩)
      ⟨?_, ⟨_, _, rfl, rfl, _, rfl, ?_, ?_⟩, fun _ _ _ => [], rfl⟩)
      ⟨?_, ⟨_, _, rfl, rfl, rfl⟩, fun _ _ _ => [], rfl⟩)
      ⟨?_, ⟨_, _, rfl, rfl, rfl⟩, fun _ _ _ => [], rfl⟩ <;> decide

theorem vault_spans {a : Handle} (h : (vaultState value).threadPart.Spans a) : a = 0 := by
  induction h with
  | @root a ha =>
    have hroots : a ∈ [0] := ha
    exact List.mem_singleton.1 hroots
  | @awaited x a hx ha =>
    obtain rfl := List.mem_singleton.1 hx
    cases ha
  | @next a b o ha ho hb ih =>
    subst ih
    cases ho
    cases hb

theorem vault_same (value value' : Int64) :
    (vaultState value).SameToThreads (fun a b => a = 0 ∧ b = 0) (vaultState value') where
  threads := by
    refine ⟨⟨⟨fun a b c hac hbc => hac.1.trans hbc.1.symm,
      fun a b c hab hac => hab.2.trans hac.2.symm⟩, ?_⟩, .nil, ?_⟩
    · rintro _ _ ⟨rfl, rfl⟩
      exact .some ⟨rfl, rfl, .fields (.cons (.int 0) .nil)⟩
    · exact .cons ⟨rfl, .runnable, .cons ⟨rfl, rfl, .cons (.ref ⟨rfl, rfl⟩) (.cons (.int 0) .nil)⟩
        .nil, rfl⟩ .nil
  statics := by
    have hbox : ∀ {v : Int64}, ¬ (vaultState v).threadPart.Spans 1 := fun h =>
      absurd (vault_spans h) (by decide)
    refine .cons ⟨rfl, rfl, ?_, rfl⟩ (.cons ⟨rfl, rfl, .nil, rfl⟩ .nil)
    exact .cons (.beyond hbox hbox) (.cons (.paired (.ref ⟨rfl, rfl⟩)) .nil)

def vaultWords (kind : SerializerKind) (s : State) : Except MaskError (List Nat) := do
  let masks ← Masks.ofProgram vault ⟨[], []⟩
  return (← s.fingerprint ⟨kind, true⟩ masks).words

/-- The number that was put away shows in the full fingerprint, and not in the one from threads. -/
theorem vault_coarser : vaultWords .full (vaultState 0) ≠ vaultWords .full (vaultState 1) ∧
    vaultWords .threadReachable (vaultState 0) = vaultWords .threadReachable (vaultState 1) := by
  refine ⟨by decide +kernel, ?_⟩
  obtain ⟨_, _, g, g', _, _, hg, hg', _, hthreads⟩ := threads_coarser vault_source vault_unfiltered
    vault_collectionFree rfl (vault_execution (.inl rfl)) (vault_execution (.inr rfl))
  have hfirst : vaultWords .threadReachable (vaultState 0) = .ok g.words :=
    bind_eq_ok.2 ⟨_, rfl, bind_eq_ok.2 ⟨g, hg, rfl⟩⟩
  have hsecond : vaultWords .threadReachable (vaultState 1) = .ok g'.words :=
    bind_eq_ok.2 ⟨_, rfl, bind_eq_ok.2 ⟨g', hg', rfl⟩⟩
  rw [hfirst, hsecond, hthreads _ (vault_same 0 1)]

end Interleave
