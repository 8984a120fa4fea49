import Interleave.Proofs.Fingerprint.Seen

set_option autoImplicit false

/-! Fingerprints and the keys for their collections are defined with bounds on how much is written
out and on how many collections are opened. Here the same computations are given by rules that know
no bound: objects are written out until none is waiting, and each member without a number gets a key
of its own, for which the rules start over, unless its collection is open already. -/

namespace Interleave

namespace KeyContext

/-- What is asked for: the key of an object, or the words of the objects that are numbered locally,
from a position on. -/
inductive Task where
  | key (root : Handle)
  | queue (found : List Handle) (done : Nat)

def byKeys (c : KeyContext) (keys : Handle → List Nat) (found members : List Handle) : List Handle :=
  sortByRank (c.rank found keys) members

/-- The words of a task while some collections are open. -/
inductive Computes (c : KeyContext) : List Handle → Task → List Nat → Prop where
  | key {opened found : List Handle} {root : Handle} {first rest : List Nat}
      (hfirst : (c.reference root).run [] = (first, found))
      (hrest : Computes c opened (.queue found 0) rest) :
      Computes c opened (.key root) (first ++ rest)
  | drained {opened found : List Handle} {done : Nat} (h : found[done]? = none) :
      Computes c opened (.queue found done) []
  | gone {opened found : List Handle} {done : Nat} {a : Handle} {rest : List Nat}
      (ha : found[done]? = some a) (ho : c.heap.get? a = none)
      (hrest : Computes c opened (.queue found (done + 1)) rest) :
      Computes c opened (.queue found done) rest
  | reopened {opened found found' : List Handle} {done : Nat} {a : Handle} {o : Object}
      {words rest : List Nat} (ha : found[done]? = some a) (ho : c.heap.get? a = some o)
      (hopened : a ∈ opened)
      (hwords : (c.object (c.byKeys (shallowKey c.heap c.masks)) o).run found = (words, found'))
      (hrest : Computes c opened (.queue found' (done + 1)) rest) :
      Computes c opened (.queue found done) (words ++ rest)
  /-- Members with a number need no key. -/
  | next {opened found found' : List Handle} {done : Nat} {a : Handle} {o : Object}
      {words rest : List Nat} (keys : Handle → List Nat) (ha : found[done]? = some a)
      (ho : c.heap.get? a = some o) (hnew : a ∉ opened)
      (hkeys : ∀ m ∈ o.payload.listing, m ∉ c.numbered → m ∉ found →
        Computes c (a :: opened) (.key m) (keys m))
      (hwords : (c.object (c.byKeys keys) o).run found = (words, found'))
      (hrest : Computes c opened (.queue found' (done + 1)) rest) :
      Computes c opened (.queue found done) (words ++ rest)

variable {c : KeyContext} {found : List Handle}

theorem byKeys_congr {members : List Handle} {keys keys' : Handle → List Nat}
    (h : ∀ m ∈ members, m ∉ c.numbered → m ∉ found → keys m = keys' m) :
    c.byKeys keys found members = c.byKeys keys' found members := by
  apply sortByRank_congr
  intro m hm
  unfold rank
  cases hn : Interleave.number? c.numbered m with
  | some n => rfl
  | none =>
    cases hn' : Interleave.number? found m with
    | some n => rfl
    | none =>
      dsimp only
      rw [h m hm (number?_eq_none.1 hn) (number?_eq_none.1 hn')]

theorem object_congr (c : KeyContext) {order order' : List Handle → List Handle → List Handle}
    {o : Object} (h : order found o.payload.listing = order' found o.payload.listing) :
    (c.object order o).run found = (c.object order' o).run found := by
  obtain ⟨owner, monitor, payload⟩ := o
  cases payload with
  | fields | ints | refs => rfl
  | set members =>
    exact congrArg (fun sorted : List Handle => (do
      return owner :: monitor.words ++ sorted.length :: (← each c.reference sorted) : KeyWalk).run
      found) h
  | bag members =>
    let entry (h : Handle) : KeyWalk := do return (← c.reference h) ++ [members.count h]
    exact congrArg (fun sorted : List Handle => (do
      return owner :: monitor.words ++ sorted.length :: (← each entry sorted) : KeyWalk).run
      found) h

theorem Computes.unique {opened : List Handle} {task : Task} {words words' : List Nat}
    (h : c.Computes opened task words) (h' : c.Computes opened task words') : words = words' := by
  induction h generalizing words' with
  | key hfirst _ ih =>
    cases h' with
    | key hfirst' hrest' =>
      obtain ⟨rfl, rfl⟩ := Prod.mk.inj (hfirst.symm.trans hfirst')
      rw [ih hrest']
  | drained hend =>
    cases h' with
    | drained => rfl
    | gone ha | reopened ha | next _ ha => cases hend.symm.trans ha
  | gone ha ho _ ih =>
    cases h' with
    | drained hend => cases hend.symm.trans ha
    | gone ha' _ hrest' => exact ih hrest'
    | reopened ha' ho' | next _ ha' ho' =>
      cases ha.symm.trans ha'
      cases ho.symm.trans ho'
  | reopened ha ho hopened hwords _ ih =>
    cases h' with
    | drained hend => cases hend.symm.trans ha
    | gone ha' ho' =>
      cases ha.symm.trans ha'
      cases ho'.symm.trans ho
    | reopened ha' ho' _ hwords' hrest' =>
      cases ha.symm.trans ha'
      cases ho.symm.trans ho'
      obtain ⟨rfl, rfl⟩ := Prod.mk.inj (hwords.symm.trans hwords')
      rw [ih hrest']
    | next _ ha' _ hnew =>
      cases ha.symm.trans ha'
      exact absurd hopened hnew
  | next keys ha ho hnew _ hwords _ ihkeys ih =>
    cases h' with
    | drained hend => cases hend.symm.trans ha
    | gone ha' ho' =>
      cases ha.symm.trans ha'
      cases ho'.symm.trans ho
    | reopened ha' _ hopened =>
      cases ha.symm.trans ha'
      exact absurd hopened hnew
    | next keys' ha' ho' _ hkeys' hwords' hrest' =>
      cases ha.symm.trans ha'
      cases ho.symm.trans ho'
      have hsame := c.object_congr (byKeys_congr fun m hm hm' hm'' =>
        ihkeys m hm hm' hm'' (hkeys' m hm hm' hm''))
      obtain ⟨rfl, rfl⟩ := Prod.mk.inj (hwords.symm.trans (hsame.trans hwords'))
      rw [ih hrest']

section Existence

variable {heap : Heap} {masks : Masks} {numbered opened found : List Handle} {o : Object}

/-- The objects that are waiting are distinct and not gone, so the bound is not felt. -/
theorem expand_computes
    (hkeys : ∀ a o m, heap.get? a = some o → a ∉ opened → Computes ⟨heap, masks, numbered⟩
      (a :: opened) (.key m) (memberKey ⟨heap, masks, numbered⟩ opened a m))
    {fuel done : Nat} (hfuel : heap.cells.length ≤ done + fuel)
    (hfound : heap.Met (fun _ => True) found) :
    Computes ⟨heap, masks, numbered⟩ opened (.queue found done)
      ((expand ⟨heap, masks, numbered⟩ (arranged ⟨heap, masks, numbered⟩ opened) fuel done).run
        found).1 := by
  induction fuel generalizing done found with
  | zero =>
    apply Computes.drained
    exact List.getElem?_eq_none (by have := hfound.length_le; omega)
  | succ fuel ih =>
    cases hnext : found[done]? with
    | none =>
      have hend := expand_end ⟨heap, masks, numbered⟩ (arranged ⟨heap, masks, numbered⟩ opened)
        (fuel + 1) hnext
      rw [congrArg Prod.fst (Except.ok.inj hend)]
      exact .drained hnext
    | some a =>
      obtain ⟨o, ho⟩ := Heap.isLive_iff.1 (hfound.live a (List.mem_of_getElem? hnext))
      obtain ⟨⟨words, found'⟩, hwords⟩ : ∃ r, (object ⟨heap, masks, numbered⟩
        (arranged ⟨heap, masks, numbered⟩ opened a) o).run found = r := ⟨_, rfl⟩
      have hmet := object_met (c := ⟨heap, masks, numbered⟩) (fun _ _ _ _ _ _ => trivial) opened a
        trivial ho hfound
      rw [hwords] at hmet
      have hrest := ih (show heap.cells.length ≤ done + 1 + fuel by omega) hmet
      have hstep := (expand_next ⟨heap, masks, numbered⟩ (arranged ⟨heap, masks, numbered⟩ opened)
        fuel hnext ho).trans (bind_run (congrArg Except.ok hwords) _)
      rw [congrArg Prod.fst (Except.ok.inj hstep)]
      by_cases hopened : a ∈ opened
      · refine .reopened hnext ho hopened ?_ hrest
        have hshallow : memberKey ⟨heap, masks, numbered⟩ opened a = shallowKey heap masks :=
          funext fun m => if_pos hopened
        rw [← hwords, ← hshallow]
        rfl
      · exact .next _ hnext ho hopened (fun m _ _ _ => hkeys a o m ho hopened) hwords hrest

/-- A collection is opened at most once on the way down, so fewer and fewer are left. -/
theorem memberKey_computes (hopened : heap.Met (fun _ => True) opened) {a : Handle}
    (ho : heap.get? a = some o) (ha : a ∉ opened) (m : Handle) :
    Computes ⟨heap, masks, numbered⟩ (a :: opened) (.key m)
      (memberKey ⟨heap, masks, numbered⟩ opened a m) := by
  induction hleft : heap.cells.length - opened.length using Nat.strong_induction_on
    generalizing opened a o m with
  | _ left ih =>
  have hmore := hopened.cons trivial (Heap.isLive_iff.2 ⟨o, ho⟩) ha
  have hlength := hmore.length_le
  rw [List.length_cons] at hlength
  rw [memberKey, if_neg ha, key_succ ⟨heap, masks, numbered⟩ hlength]
  have hroot := reference_met (c := ⟨heap, masks, numbered⟩) (a := m)
    (fun _ _ _ _ _ _ => trivial) .nil trivial
  refine .key rfl (expand_computes ?_ (Nat.zero_add _).ge hroot)
  intro b q k hq hb
  exact ih _ (by rw [List.length_cons]; omega) hmore hq hb k rfl

end Existence

end KeyContext

namespace Walk

/-- How a walk over a heap ends that has the objects met so far still to write out, from a position
on. -/
inductive Drains (masks : Masks) (heap : Heap) :
    List Handle → Nat → Except MaskError (List Nat × List Handle) → Prop where
  | drained {found : List Handle} {done : Nat} (h : found[done]? = none) :
      Drains masks heap found done (.ok ([], found))
  | gone {found : List Handle} {done : Nat} {a : Handle}
      {r : Except MaskError (List Nat × List Handle)} (ha : found[done]? = some a)
      (ho : heap.get? a = none)
      (hrest : Drains masks heap found (done + 1) r) : Drains masks heap found done r
  | unmasked {found : List Handle} {done : Nat} {a : Handle} {o : Object} {e : MaskError}
      (ha : found[done]? = some a) (ho : heap.get? a = some o)
      (hmask : masks.ofClass o.owner = .error e) : Drains masks heap found done (.error e)
  | next {found found' : List Handle} {done : Nat} {a : Handle} {o : Object} {words : List Nat}
      {r : Except MaskError (List Nat × List Handle)} (keys : Handle → List Nat)
      (ha : found[done]? = some a) (ho : heap.get? a = some o)
      (hkeys : ∀ m ∈ o.payload.listing, m ∉ found →
        KeyContext.Computes ⟨heap, masks, found⟩ [a] (.key m) (keys m))
      (hwords : objectWordsBy masks heap (fun _ => KeyContext.byKeys ⟨heap, masks, found⟩ keys []) o
        found = .ok (words, found'))
      (hrest : Drains masks heap found' (done + 1) r) :
      Drains masks heap found done (r.map (Prod.map (words ++ ·) id))

variable {masks : Masks} {heap : Heap} {found : List Handle}
  {order : List Handle → List Handle → List Handle} {o : Object} {done : Nat} {words : List Nat}

theorem objectWordsBy_congr {order' : List Handle → List Handle → List Handle}
    (h : order found o.payload.listing = order' found o.payload.listing) :
    objectWordsBy masks heap order o found = objectWordsBy masks heap order' o found := by
  obtain ⟨owner, monitor, payload⟩ := o
  unfold objectWordsBy
  dsimp only
  cases masks.ofClass owner with
  | error e => rfl
  | ok mask =>
    cases payload with
    | fields | ints | refs => rfl
    | set members =>
      exact congrArg (fun sorted : List Handle => (do
        return owner :: monitor.words ++ sorted.length ::
          (← each (fun m => return [← reference heap true m]) sorted) : Walk (List Nat)) found) h
    | bag members =>
      exact congrArg (fun sorted : List Handle => (do
        return owner :: monitor.words ++ sorted.length ::
          (← each (fun m => return [← reference heap true m, members.count m]) sorted) :
          Walk (List Nat)) found) h

theorem objectWordsBy_unmasked {e : MaskError} (h : masks.ofClass o.owner = .error e)
    (found : List Handle) : objectWordsBy masks heap order o found = .error e := by
  unfold objectWordsBy
  rw [h]
  rfl

theorem Drains.unique {r r' : Except MaskError (List Nat × List Handle)}
    (h : Drains masks heap found done r) (h' : Drains masks heap found done r') : r = r' := by
  induction h generalizing r' with
  | drained hend =>
    cases h' with
    | drained => rfl
    | gone ha | unmasked ha | next _ ha => cases hend.symm.trans ha
  | gone ha ho _ ih =>
    cases h' with
    | drained hend => cases hend.symm.trans ha
    | gone _ _ hrest' => exact ih hrest'
    | unmasked ha' ho' | next _ ha' ho' =>
      cases ha.symm.trans ha'
      cases ho.symm.trans ho'
  | unmasked ha ho hmask =>
    cases h' with
    | drained hend => cases hend.symm.trans ha
    | gone ha' ho' =>
      cases ha.symm.trans ha'
      cases ho'.symm.trans ho
    | unmasked ha' ho' hmask' =>
      cases ha.symm.trans ha'
      cases ho.symm.trans ho'
      rw [Except.error.inj (hmask.symm.trans hmask')]
    | next _ ha' ho' _ hwords' =>
      cases ha.symm.trans ha'
      cases ho.symm.trans ho'
      cases (objectWordsBy_unmasked hmask _).symm.trans hwords'
  | @next found found' done a o words r keys ha ho hkeys hwords _ ih =>
    cases h' with
    | drained hend => cases hend.symm.trans ha
    | gone ha' ho' =>
      cases ha.symm.trans ha'
      cases ho'.symm.trans ho
    | unmasked ha' ho' hmask' =>
      cases ha.symm.trans ha'
      cases ho.symm.trans ho'
      cases (objectWordsBy_unmasked hmask' _).symm.trans hwords
    | next keys' ha' ho' hkeys' hwords' hrest' =>
      cases ha.symm.trans ha'
      cases ho.symm.trans ho'
      have hsame : objectWordsBy masks heap
          (fun _ => KeyContext.byKeys ⟨heap, masks, found⟩ keys []) o found =
          objectWordsBy masks heap (fun _ => KeyContext.byKeys ⟨heap, masks, found⟩ keys' []) o
            found := by
        apply objectWordsBy_congr
        exact KeyContext.byKeys_congr fun m hm hm' _ => (hkeys m hm hm').unique (hkeys' m hm hm')
      rw [hsame, hwords'] at hwords
      cases hwords
      rw [ih hrest']

/-- Objects are met once and while they are not gone, so the bound is not felt. -/
theorem expand_drains {fuel : Nat} (hfuel : heap.cells.length ≤ done + fuel)
    (hfound : heap.Met (fun _ => True) found) :
    Drains masks heap found done (expand masks heap fuel done found) := by
  induction fuel generalizing done found with
  | zero =>
    apply Drains.drained
    exact List.getElem?_eq_none (by have := hfound.length_le; omega)
  | succ fuel ih =>
    cases hnext : found[done]? with
    | none =>
      rw [expand_end heap (fuel + 1) hnext]
      exact .drained hnext
    | some a =>
      obtain ⟨o, ho⟩ := Heap.isLive_iff.1 (hfound.live a (List.mem_of_getElem? hnext))
      rw [expand_next heap fuel hnext ho]
      cases hmask : masks.ofClass o.owner with
      | error e =>
        have hfails : objectWords masks heap a o found = .error e := objectWordsBy_unmasked hmask _
        change Drains masks heap found done (objectWords masks heap a o found >>= _)
        rw [hfails]
        exact .unmasked hnext ho hmask
      | ok mask =>
        obtain ⟨⟨words, found'⟩, hwords⟩ : ∃ r, objectWords masks heap a o found = .ok r :=
          objectWordsBy_total ⟨mask, hmask⟩ heap _ found
        obtain ⟨items, _, hscript⟩ := objectWords_script ho hwords
        obtain ⟨rfl, _⟩ := script_result (hscript.symm.trans hwords)
        have hmet : heap.Met _ (heap.discover found (mentions items)) :=
          hfound.discover fun _ _ => trivial
        have hrest := ih (show heap.cells.length ≤ done + 1 + fuel by omega) hmet
        rw [bind_run hwords]
        refine .next _ hnext ho (fun m _ _ => KeyContext.memberKey_computes .nil ho
          List.not_mem_nil m) ?_ hrest
        rw [← hwords]
        exact objectWordsBy_congr rfl

theorem threads_met {policy : SerializerPolicy} {threads : List Thread}
    (h : each (threadWords policy masks heap) threads [] = .ok (words, found)) :
    heap.Met (fun _ => True) found := by
  rw [threads_script h] at h
  obtain ⟨rfl, _⟩ := script_result h
  exact Heap.Met.nil.discover fun _ _ => trivial

theorem statics_met {statics : List StaticRecord} {found' : List Handle}
    (hfound : heap.Met (fun _ => True) found)
    (h : each (staticWords masks heap true) statics found = .ok (words, found')) :
    heap.Met (fun _ => True) found' := by
  rw [statics_script h] at h
  obtain ⟨rfl, _⟩ := script_result h
  exact hfound.discover fun _ _ => trivial

end Walk

/-- How the walk over a state ends: with a fingerprint, or where a mask is missing. -/
inductive State.Serializes (s : State) (policy : SerializerPolicy) (masks : Masks) :
    Except MaskError Fingerprint → Prop where
  | threadsFail {e : MaskError}
      (hthreads : Walk.each (Walk.threadWords policy masks s.heap) s.threads [] = .error e) :
      Serializes s policy masks (.error e)
  | staticsFail {threads : List Nat} {found : List Handle} {e : MaskError}
      (hkind : policy.kind = .full)
      (hthreads : Walk.each (Walk.threadWords policy masks s.heap) s.threads [] =
        .ok (threads, found))
      (hstatics : Walk.each (Walk.staticWords masks s.heap true) s.statics found = .error e) :
      Serializes s policy masks (.error e)
  | full {threads statics : List Nat} {found found' : List Handle}
      {r : Except MaskError (List Nat × List Handle)} (hkind : policy.kind = .full)
      (hthreads : Walk.each (Walk.threadWords policy masks s.heap) s.threads [] =
        .ok (threads, found))
      (hstatics : Walk.each (Walk.staticWords masks s.heap true) s.statics found =
        .ok (statics, found'))
      (hobjects : Walk.Drains masks s.heap found' 0 r) :
      Serializes s policy masks (r.map fun objects =>
        ⟨s.threads.length :: threads ++ [s.statics.length] ++ statics ++ objects.1⟩)
  | threadReachable {threads : List Nat} {found : List Handle}
      {r : Except MaskError (List Nat × List Handle)} (hkind : policy.kind = .threadReachable)
      (hthreads : Walk.each (Walk.threadWords policy masks s.heap) s.threads [] =
        .ok (threads, found))
      (hobjects : Walk.Drains masks s.heap found 0 r) :
      Serializes s policy masks (r.bind fun objects =>
        (Walk.each (Walk.staticWords masks s.heap false) s.statics objects.2).map fun statics =>
          ⟨s.threads.length :: threads ++ [s.statics.length] ++ objects.1 ++ statics.1⟩)

section States

variable {s : State} {policy : SerializerPolicy} {masks : Masks}

theorem State.exists_serializes (s : State) (policy : SerializerPolicy) (masks : Masks) :
    ∃ r, s.Serializes policy masks r := by
  cases hthreads : Walk.each (Walk.threadWords policy masks s.heap) s.threads [] with
  | error e => exact ⟨_, .threadsFail hthreads⟩
  | ok threads =>
    have hmet := Walk.threads_met hthreads
    cases hkind : policy.kind with
    | full =>
      cases hstatics : Walk.each (Walk.staticWords masks s.heap true) s.statics threads.2 with
      | error e => exact ⟨_, .staticsFail hkind hthreads hstatics⟩
      | ok statics =>
        have hmet' := Walk.statics_met hmet hstatics
        exact ⟨_, .full hkind hthreads hstatics (Walk.expand_drains (Nat.zero_add _).ge hmet')⟩
    | threadReachable =>
      exact ⟨_, .threadReachable hkind hthreads (Walk.expand_drains (Nat.zero_add _).ge hmet)⟩

theorem State.Serializes.eq_fingerprint {r : Except MaskError Fingerprint}
    (h : s.Serializes policy masks r) : r = s.fingerprint policy masks := by
  unfold State.fingerprint Walk.stateWords
  cases h with
  | threadsFail hthreads =>
    change _ = (Walk.each (Walk.threadWords policy masks s.heap) s.threads [] >>= _) >>= _
    rw [hthreads]
    rfl
  | @staticsFail threads found e hkind hthreads hstatics =>
    rw [hkind]
    change _ = (_ >>= _ : Walk (List Nat)) [] >>= _
    rw [bind_run hthreads]
    change _ = (Walk.each (Walk.staticWords masks s.heap true) s.statics found >>= _) >>= _
    rw [hstatics]
    rfl
  | @full threads statics found found' r hkind hthreads hstatics hobjects =>
    have hmet := Walk.statics_met (Walk.threads_met hthreads) hstatics
    obtain rfl := hobjects.unique (Walk.expand_drains (Nat.zero_add _).ge hmet)
    rw [hkind]
    change _ = (_ >>= _ : Walk (List Nat)) [] >>= _
    rw [bind_run hthreads]
    change _ = (_ >>= _ : Walk (List Nat)) found >>= _
    rw [bind_run hstatics]
    change _ = (Walk.expand masks s.heap s.heap.cells.length 0 found' >>= _) >>= _
    cases Walk.expand masks s.heap s.heap.cells.length 0 found' <;> rfl
  | @threadReachable threads found r hkind hthreads hobjects =>
    obtain rfl := hobjects.unique (Walk.expand_drains (Nat.zero_add _).ge (Walk.threads_met hthreads))
    rw [hkind]
    change _ = (_ >>= _ : Walk (List Nat)) [] >>= _
    rw [bind_run hthreads]
    change _ = (Walk.expand masks s.heap s.heap.cells.length 0 found >>= _) >>= _
    cases Walk.expand masks s.heap s.heap.cells.length 0 found with
    | error e => rfl
    | ok objects =>
      change (Walk.each (Walk.staticWords masks s.heap false) s.statics objects.2).map _ =
        (Walk.each (Walk.staticWords masks s.heap false) s.statics objects.2 >>= _) >>= _
      cases Walk.each (Walk.staticWords masks s.heap false) s.statics objects.2 <;> rfl

/-- The walk over a state comes to an end by itself, whatever its objects refer to and however its
collections contain one another. There is one outcome by the rules, and it is the fingerprint unless a
mask is missing. -/
theorem State.serializes_iff (s : State) (policy : SerializerPolicy) (masks : Masks) :
    (∀ r, s.Serializes policy masks r ↔ r = s.fingerprint policy masks) ∧
      ((∃ f, s.fingerprint policy masks = .ok f) ∨
        ∃ e, s.fingerprint policy masks = .error e ∧ e.IsMissing) := by
  refine ⟨fun r => ⟨Serializes.eq_fingerprint, ?_⟩, ?_⟩
  · rintro rfl
    obtain ⟨r, hr⟩ := s.exists_serializes policy masks
    exact hr.eq_fingerprint ▸ hr
  · cases hf : s.fingerprint policy masks with
    | ok f => exact .inl ⟨f, rfl⟩
    | error e =>
      refine .inr ⟨e, rfl, ?_⟩
      rcases bind_eq_error hf with hwords | ⟨_, _, hwords⟩
      · exact Walk.stateWords_misses policy s [] e hwords
      · cases hwords

end States

/-- Two sets that contain each other and themselves. -/
example : State.fingerprint ⟨[], [⟨0, true, [.ref 0, .null], .free⟩],
      ⟨[some ⟨1, .free, .set ⟨.fast, [1, 0], by simp⟩⟩,
        some ⟨1, .free, .set ⟨.fast, [0, 1], by simp⟩⟩]⟩⟩ ⟨.full, true⟩
      ⟨[⟨⟨[], []⟩, ⟨[], [true, true]⟩⟩, ⟨⟨[], []⟩, ⟨[], []⟩⟩], []⟩ =
    .ok ⟨[0, 1, 0, 1, 0, 0, 1, 0, 1, 0, 0, 2, 1, 2, 1, 0, 0, 2, 1, 2]⟩ :=
  rfl

end Interleave
