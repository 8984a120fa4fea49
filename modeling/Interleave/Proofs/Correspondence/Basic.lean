import Mathlib.Data.List.Forall2
import Interleave.Machine.Step
import Interleave.Proofs.Store.Collections

set_option autoImplicit false

/-! A pairing relates handles of one heap to handles of another. Two states correspond under a
pairing when it is one to one, paired handles stand for objects that agree up to the pairing, and
threads and statics agree up to it. -/

namespace Interleave

variable {x y z : ThreadStatus} {r q k : StaticRecord} {v w u : List Value} {l m n : LockRef}
  {f g : StackFrame}

abbrev Pairing := Handle → Handle → Prop

inductive Value.Matches (R : Pairing) : Value → Value → Prop where
  | int (v : Int64) : Matches R (.int v) (.int v)
  | null : Matches R .null .null
  | ref {a b : Handle} (h : R a b) : Matches R (.ref a) (.ref b)

inductive LockRef.Matches (R : Pairing) : LockRef → LockRef → Prop where
  | object {a b : Handle} (h : R a b) : Matches R (.object a) (.object b)
  | ofClass (id : ClassId) : Matches R (.ofClass id) (.ofClass id)

inductive ThreadStatus.Matches (R : Pairing) : ThreadStatus → ThreadStatus → Prop where
  | runnable : Matches R .runnable .runnable
  | blocked {l m : LockRef} (h : l.Matches R m) : Matches R (.blocked l) (.blocked m)
  | terminated : Matches R .terminated .terminated

structure StackFrame.Matches (R : Pairing) (f g : StackFrame) : Prop where
  method : f.method = g.method
  pc : f.pc = g.pc
  locals : List.Forall₂ (Value.Matches R) f.locals g.locals

structure Thread.Matches (R : Pairing) (t u : Thread) : Prop where
  name : t.name = u.name
  status : t.status.Matches R u.status
  frames : List.Forall₂ (StackFrame.Matches R) t.frames u.frames
  uncaught : t.uncaught.isSome = u.uncaught.isSome

structure StaticRecord.Matches (R : Pairing) (r q : StaticRecord) : Prop where
  owner : r.owner = q.owner
  initialized : r.initialized = q.initialized
  fields : List.Forall₂ (Value.Matches R) r.fields q.fields
  monitor : r.monitor = q.monitor

inductive Payload.Matches (R : Pairing) : Payload → Payload → Prop where
  | fields {v w : List Value} (h : List.Forall₂ (Value.Matches R) v w) :
      Matches R (.fields v) (.fields w)
  | ints (elements : List Int64) : Matches R (.ints elements) (.ints elements)
  | refs {e f : List (Option Handle)} (h : List.Forall₂ (Option.Rel R) e f) :
      Matches R (.refs e) (.refs f)
  | set {m n : IdSet Handle} (h : m.Matches R n) : Matches R (.set m) (.set n)
  | bag {b c : IdBag Handle} (h : b.Matches R c) : Matches R (.bag b) (.bag c)

structure Object.Matches (R : Pairing) (o q : Object) : Prop where
  owner : o.owner = q.owner
  monitor : o.monitor = q.monitor
  payload : o.payload.Matches R q.payload

namespace State

/-- Statics and paired objects agree; this is all that an expression can read beside its locals. -/
structure SameMemory (s : State) (R : Pairing) (t : State) : Prop where
  oneToOne : Relator.BiUnique R
  statics : List.Forall₂ (StaticRecord.Matches R) s.statics t.statics
  objects : ∀ a b, R a b → ∃ o q, s.heap.get? a = some o ∧ t.heap.get? b = some q ∧ o.Matches R q

structure Corresponds (s : State) (R : Pairing) (t : State) : Prop extends SameMemory s R t where
  threads : List.Forall₂ (Thread.Matches R) s.threads t.threads

end State

section Lists

variable {α β γ : Type} {R : α → β → Prop} {l : List α} {m : List β} {p : α → Bool} {q : β → Bool}

variable (h : List.Forall₂ R l m)

include h

theorem forall₂_getElem? (i : Nat) : Option.Rel R l[i]? m[i]? := by
  induction h generalizing i with
  | nil => exact .none
  | cons hab _ ih =>
    cases i with
    | zero => exact .some hab
    | succ i => exact ih i

theorem forall₂_modify {f : α → α} {g : β → β} (hfg : ∀ a b, R a b → R (f a) (g b)) (i : Nat) :
    List.Forall₂ R (l.modify i f) (m.modify i g) := by
  induction h generalizing i with
  | nil => simp
  | cons hab hrest ih =>
    cases i with
    | zero => exact .cons (hfg _ _ hab) hrest
    | succ i => exact .cons hab (ih i)

theorem forall₂_set {a : α} {b : β} (hab : R a b) (i : Nat) :
    List.Forall₂ R (l.set i a) (m.set i b) := by
  induction h generalizing i with
  | nil => exact .nil
  | cons hcd hrest ih =>
    cases i with
    | zero => exact .cons hab hrest
    | succ i => exact .cons hcd (ih i)

theorem forall₂_comp {S : β → γ → Prop} {n : List γ} (h' : List.Forall₂ S m n) :
    List.Forall₂ (Relation.Comp R S) l n := by
  induction h generalizing n with
  | nil =>
    cases h'
    exact .nil
  | cons hab _ ih =>
    cases h' with
    | cons hbc hrest => exact .cons ⟨_, hab, hbc⟩ (ih hrest)

theorem forall₂_findIdx (hpq : ∀ a b, R a b → p a = q b) : l.findIdx p = m.findIdx q := by
  induction h with
  | nil => rfl
  | cons hab _ ih => rw [List.findIdx_cons, List.findIdx_cons, hpq _ _ hab, ih]

theorem forall₂_find? (hpq : ∀ a b, R a b → p a = q b) : Option.Rel R (l.find? p) (m.find? q) := by
  induction h with
  | nil => exact .none
  | @cons a b l m hab _ ih =>
    rw [List.find?_cons, List.find?_cons, hpq a b hab]
    cases q b with
    | true => exact .some hab
    | false => exact ih

theorem forall₂_mapIdx {δ : Type} {S : γ → δ → Prop} {f : Nat → α → γ} {g : Nat → β → δ}
    (hfg : ∀ i a b, R a b → S (f i a) (g i b)) : List.Forall₂ S (l.mapIdx f) (m.mapIdx g) := by
  induction h generalizing f g with
  | nil => exact .nil
  | cons hab _ ih =>
    rw [List.mapIdx_cons, List.mapIdx_cons]
    exact .cons (hfg 0 _ _ hab) (ih fun i a b => hfg (i + 1) a b)

theorem forall₂_dropWhile (hpq : ∀ a b, R a b → p a = q b) :
    List.Forall₂ R (l.dropWhile p) (m.dropWhile q) := by
  induction h with
  | nil => exact .nil
  | @cons a b l m hab hrest ih =>
    rw [List.dropWhile_cons, List.dropWhile_cons, hpq a b hab]
    split
    · exact ih
    · exact .cons hab hrest

end Lists

section Mono

variable {R S : Pairing} (hRS : ∀ a b, R a b → S a b)

include hRS

theorem Value.Matches.mono {v w : Value} (h : v.Matches R w) : v.Matches S w := by
  cases h with
  | int v => exact .int v
  | null => exact .null
  | ref h => exact .ref (hRS _ _ h)

theorem values_mono (h : List.Forall₂ (Value.Matches R) v w) : List.Forall₂ (Value.Matches S) v w :=
  h.imp fun _ _ hvw => hvw.mono hRS

theorem LockRef.Matches.mono (h : l.Matches R m) : l.Matches S m := by
  cases h with
  | object h => exact .object (hRS _ _ h)
  | ofClass id => exact .ofClass id

theorem ThreadStatus.Matches.mono (h : x.Matches R y) : x.Matches S y := by
  cases h with
  | runnable => exact .runnable
  | blocked h => exact .blocked (h.mono hRS)
  | terminated => exact .terminated

theorem StackFrame.Matches.mono (h : f.Matches R g) : f.Matches S g :=
  ⟨h.method, h.pc, values_mono hRS h.locals⟩

theorem Thread.Matches.mono {t u : Thread} (h : t.Matches R u) : t.Matches S u :=
  ⟨h.name, h.status.mono hRS, h.frames.imp fun _ _ hfg => hfg.mono hRS, h.uncaught⟩

theorem StaticRecord.Matches.mono (h : r.Matches R q) : r.Matches S q :=
  ⟨h.owner, h.initialized, values_mono hRS h.fields, h.monitor⟩

theorem Payload.Matches.mono {o q : Payload} (h : o.Matches R q) : o.Matches S q := by
  cases h with
  | fields h => exact .fields (values_mono hRS h)
  | ints e => exact .ints e
  | refs h =>
    refine .refs (h.imp fun x y hxy => ?_)
    cases hxy with
    | none => exact .none
    | some h => exact .some (hRS _ _ h)
  | set h => exact .set (Multiset.Rel.mono h fun a _ b _ => hRS a b)
  | bag h => exact .bag ⟨h.left, h.right,
      h.entries.mono fun e _ f _ hef => ⟨hRS _ _ hef.1, hef.2⟩⟩

theorem Object.Matches.mono {o q : Object} (h : o.Matches R q) : o.Matches S q :=
  ⟨h.owner, h.monitor, h.payload.mono hRS⟩

end Mono

section Swap

variable {R : Pairing}

theorem Value.Matches.swap {v w : Value} (h : v.Matches R w) :
    w.Matches (Function.swap R) v := by
  cases h with
  | int v => exact .int v
  | null => exact .null
  | ref h => exact .ref h

theorem values_swap (h : List.Forall₂ (Value.Matches R) v w) :
    List.Forall₂ (Value.Matches (Function.swap R)) w v :=
  (h.imp fun _ _ hvw => hvw.swap).flip

theorem LockRef.Matches.swap (h : l.Matches R m) : m.Matches (Function.swap R) l := by
  cases h with
  | object h => exact .object h
  | ofClass id => exact .ofClass id

theorem ThreadStatus.Matches.swap (h : x.Matches R y) : y.Matches (Function.swap R) x := by
  cases h with
  | runnable => exact .runnable
  | blocked h => exact .blocked h.swap
  | terminated => exact .terminated

theorem StackFrame.Matches.swap (h : f.Matches R g) : g.Matches (Function.swap R) f :=
  ⟨h.method.symm, h.pc.symm, values_swap h.locals⟩

theorem Thread.Matches.swap {t u : Thread} (h : t.Matches R u) :
    u.Matches (Function.swap R) t :=
  ⟨h.name.symm, h.status.swap, (h.frames.imp fun _ _ hfg => hfg.swap).flip, h.uncaught.symm⟩

theorem StaticRecord.Matches.swap (h : r.Matches R q) : q.Matches (Function.swap R) r :=
  ⟨h.owner.symm, h.initialized.symm, values_swap h.fields, h.monitor.symm⟩

theorem Payload.Matches.swap {o q : Payload} (h : o.Matches R q) :
    q.Matches (Function.swap R) o := by
  cases h with
  | fields h => exact .fields (values_swap h)
  | ints e => exact .ints e
  | refs h =>
    refine .refs (List.Forall₂.flip (h.imp fun x y hxy => ?_))
    cases hxy with
    | none => exact .none
    | some h => exact .some h
  | set h => exact .set (Multiset.rel_flip.2 h)
  | bag h => exact .bag h.flip

theorem Object.Matches.swap {o q : Object} (h : o.Matches R q) :
    q.Matches (Function.swap R) o :=
  ⟨h.owner.symm, h.monitor.symm, h.payload.swap⟩

theorem State.Corresponds.swap {s t : State} (h : s.Corresponds R t) :
    t.Corresponds (Function.swap R) s where
  oneToOne := biUnique_swap h.oneToOne
  statics := (h.statics.imp fun _ _ hrq => hrq.swap).flip
  objects := by
    intro b a hab
    obtain ⟨o, q, ho, hq, hoq⟩ := h.objects a b hab
    exact ⟨q, o, hq, ho, hoq.swap⟩
  threads := (h.threads.imp fun _ _ htu => htu.swap).flip

end Swap

section Comp

variable {R S : Pairing}

theorem Value.Matches.comp {u v w : Value} (h : u.Matches R v) (h' : v.Matches S w) :
    u.Matches (Relation.Comp R S) w := by
  cases h with
  | int v => cases h'; exact .int v
  | null => cases h'; exact .null
  | ref h =>
    cases h' with
    | ref h' => exact .ref ⟨_, h, h'⟩

theorem values_comp (h : List.Forall₂ (Value.Matches R) u v)
    (h' : List.Forall₂ (Value.Matches S) v w) :
    List.Forall₂ (Value.Matches (Relation.Comp R S)) u w :=
  (forall₂_comp h h').imp fun _ _ ⟨_, huv, hvw⟩ => huv.comp hvw

theorem LockRef.Matches.comp (h : l.Matches R m) (h' : m.Matches S n) :
    l.Matches (Relation.Comp R S) n := by
  cases h with
  | object h =>
    cases h' with
    | object h' => exact .object ⟨_, h, h'⟩
  | ofClass id => cases h'; exact .ofClass id

theorem ThreadStatus.Matches.comp (h : x.Matches R y) (h' : y.Matches S z) :
    x.Matches (Relation.Comp R S) z := by
  cases h with
  | runnable => cases h'; exact .runnable
  | blocked h =>
    cases h' with
    | blocked h' => exact .blocked (h.comp h')
  | terminated => cases h'; exact .terminated

theorem StackFrame.Matches.comp {k : StackFrame} (h : f.Matches R g) (h' : g.Matches S k) :
    f.Matches (Relation.Comp R S) k :=
  ⟨h.method.trans h'.method, h.pc.trans h'.pc, values_comp h.locals h'.locals⟩

theorem Thread.Matches.comp {t u v : Thread} (h : t.Matches R u) (h' : u.Matches S v) :
    t.Matches (Relation.Comp R S) v where
  name := h.name.trans h'.name
  status := h.status.comp h'.status
  frames := (forall₂_comp h.frames h'.frames).imp fun _ _ ⟨_, hfg, hgk⟩ => hfg.comp hgk
  uncaught := h.uncaught.trans h'.uncaught

theorem StaticRecord.Matches.comp (h : r.Matches R q) (h' : q.Matches S k) :
    r.Matches (Relation.Comp R S) k :=
  ⟨h.owner.trans h'.owner, h.initialized.trans h'.initialized, values_comp h.fields h'.fields,
    h.monitor.trans h'.monitor⟩

theorem Payload.Matches.comp {o q k : Payload} (h : o.Matches R q) (h' : q.Matches S k) :
    o.Matches (Relation.Comp R S) k := by
  cases h with
  | fields h =>
    cases h' with
    | fields h' => exact .fields (values_comp h h')
  | ints e => cases h'; exact .ints e
  | refs h =>
    cases h' with
    | refs h' =>
      refine .refs ((forall₂_comp h h').imp fun x z ⟨y, hxy, hyz⟩ => ?_)
      cases hxy with
      | none => cases hyz; exact .none
      | some hxy =>
        cases hyz with
        | some hyz => exact .some ⟨_, hxy, hyz⟩
  | set h =>
    cases h' with
    | set h' => exact .set (rel_comp h h')
  | bag h =>
    cases h' with
    | bag h' =>
      refine .bag ⟨h.left, h'.right, (rel_comp h.entries h'.entries).mono ?_⟩
      rintro e - k - ⟨f, hef, hfk⟩
      exact ⟨⟨f.1, hef.1, hfk.1⟩, hef.2.trans hfk.2⟩

theorem biUnique_comp (hR : Relator.BiUnique R) (hS : Relator.BiUnique S) :
    Relator.BiUnique (Relation.Comp R S) := by
  constructor
  · rintro a b c ⟨x, hax, hxc⟩ ⟨y, hby, hyc⟩
    have hxy : x = y := hS.1 hxc hyc
    exact hR.1 hax (hxy ▸ hby)
  · rintro a b c ⟨x, hax, hxb⟩ ⟨y, hay, hyc⟩
    have hxy : x = y := hR.2 hax hay
    exact hS.2 hxb (hxy ▸ hyc)

theorem State.Corresponds.comp {s t u : State} (h : s.Corresponds R t) (h' : t.Corresponds S u) :
    s.Corresponds (Relation.Comp R S) u where
  oneToOne := biUnique_comp h.oneToOne h'.oneToOne
  statics := (forall₂_comp h.statics h'.statics).imp fun _ _ ⟨_, hrq, hqk⟩ => hrq.comp hqk
  objects := by
    rintro a c ⟨b, hab, hbc⟩
    obtain ⟨o, q, ho, hq, hoq⟩ := h.objects a b hab
    obtain ⟨q', k, hq', hk, hqk⟩ := h'.objects b c hbc
    obtain rfl : q = q' := Option.some.inj (hq.symm.trans hq')
    exact ⟨o, k, ho, hk, hoq.owner.trans hqk.owner, hoq.monitor.trans hqk.monitor,
      hoq.payload.comp hqk.payload⟩
  threads := (forall₂_comp h.threads h'.threads).imp fun _ _ ⟨_, htu, huv⟩ => htu.comp huv

end Comp

end Interleave
