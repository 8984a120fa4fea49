import Mathlib.Data.List.DropRight
import Interleave.Proofs.Fingerprint.Ties
import Interleave.Proofs.Search.Pass

set_option autoImplicit false

namespace Interleave

section Oldest

variable {α : Type} {l : List α} {n : Nat}

theorem rtake_cons_of_le {a : α} (h : n ≤ l.length) : (a :: l).rtake n = l.rtake n := by
  have hcount : (a :: l).length - n = l.length - n + 1 := by
    rw [List.length_cons]
    omega
  rw [List.rtake, List.rtake, hcount, List.drop_succ_cons]

theorem rtake_of_length_le (h : l.length ≤ n) : l.rtake n = l := by
  rw [List.rtake, Nat.sub_eq_zero_of_le h, List.drop_zero]

theorem rtake_subset_cons (a : α) (l : List α) (n : Nat) : l.rtake n ⊆ (a :: l).rtake n := by
  rcases Nat.lt_or_ge l.length n with hlt | hge
  · rw [rtake_of_length_le (Nat.le_of_lt hlt), rtake_of_length_le (l := a :: l) hlt]
    exact List.subset_cons_self a l
  · rw [rtake_cons_of_le hge]
    exact List.Subset.refl _

end Oldest

theorem Model.Covers.drop_oldest {m : Model} {W V : Fingerprint → Prop} {n : Node}
    {nodes : List Node} {k : Nat} (h : m.Covers W V ((n :: nodes).rtake k))
    (hidle : k ≤ nodes.length ∨ n.state.isEnd = true ∨
      ∀ a, n.agenda = some a → ∀ t data, ¬ a.Pending t data) :
    m.Covers W V (nodes.rtake k) := by
  rcases Nat.lt_or_ge nodes.length k with hlt | hge
  · rw [rtake_of_length_le (l := n :: nodes) hlt] at h
    rw [rtake_of_length_le (Nat.le_of_lt hlt)]
    exact h.drop (hidle.resolve_left (by omega))
  · rwa [rtake_cons_of_le hge] at h

namespace Search

def rank? (s : Search) (f : Fingerprint) : Option Nat :=
  (s.explorer.table.number? f).bind (s.session.depths[·]?)

def Within (s : Search) (k : Nat) (f : Fingerprint) : Prop := ∃ i ≤ k, s.rank? f = some i

structure Reranks (s : Search) (f : Fingerprint) (depth : Nat) (s' : Search) : Prop where
  other : ∀ g, g ≠ f → s'.rank? g = s.rank? g
  same : s'.session.isNew = false → s'.rank? f = s.rank? f
  expanded : s'.session.isNew = true → s'.rank? f = some depth
  reached : s'.Within depth f
  falls : ∀ k g, s.Within k g → s'.Within k g
  ranked : ∀ g, s'.explorer.table.Holds g → ∃ i, s'.rank? g = some i

section Ranks

variable {s s' : Search} {f : Fingerprint}

/-- Where depths matter, the rank of a fingerprint becomes the depth at which it is met now, if that
is smaller than its rank or it had none. -/
theorem reranks {id : StateId} {isNew : Bool} {depth : Nat}
    (hextends : s.explorer.table.Extends f id isNew s'.explorer.table)
    (hdistinct : s'.explorer.table.Distinct)
    (hranked : ∀ g, s.explorer.table.Holds g → ∃ i, s.rank? g = some i)
    (hnew : s'.session.isNew = (isNew || s.session.depths[id]?.any (depth < ·)))
    (hdepths : s'.session.depths =
      if s'.session.isNew then s.session.depths.insert id depth else s.session.depths) :
    s.Reranks f depth s' := by
  have hself : s'.rank? f = s'.session.depths[id]? := by
    rw [rank?, hextends.number, Option.bind_some]
  have hold : isNew = false → s.rank? f = s.session.depths[id]? := by
    intro hfalse
    rw [rank?, hextends.old hfalse, Option.bind_some]
  have hother : ∀ g, g ≠ f → s'.rank? g = s.rank? g := by
    intro g hg
    have hnumber : s'.explorer.table.number? g = s.explorer.table.number? g := by
      cases hbefore : s.explorer.table.number? g with
      | some i => exact hextends.kept g i hbefore
      | none =>
        rw [Option.eq_none_iff_forall_ne_some]
        intro i hi
        rcases hextends.only g i hi with hsome | heq
        · cases hbefore.symm.trans hsome
        · exact hg heq
    rw [rank?, rank?, hnumber]
    cases hi : s.explorer.table.number? g with
    | none => rfl
    | some i =>
      have hne : ¬ id = i := by
        rintro rfl
        exact hg (hdistinct.injective g f id (hnumber.trans hi) hextends.number)
      rw [Option.bind_some, Option.bind_some, hdepths]
      split
      · rw [Std.TreeMap.getElem?_insert, if_neg (by simpa using hne)]
      · rfl
  have hsame : s'.session.isNew = false → isNew = false ∧ s'.rank? f = s.rank? f := by
    intro hfalse
    have hparts := hnew.symm.trans hfalse
    rw [Bool.or_eq_false_iff] at hparts
    rw [hself, hold hparts.1, hdepths, hfalse]
    exact ⟨hparts.1, rfl⟩
  have hexpanded : s'.session.isNew = true → s'.rank? f = some depth := by
    intro htrue
    rw [hself, hdepths, htrue, if_pos rfl, Std.TreeMap.getElem?_insert_self]
  -- A rank that stays is not larger than the depth, or the state would have been expanded again.
  have hreached : s'.Within depth f := by
    cases hcase : s'.session.isNew with
    | true => exact ⟨depth, Nat.le_refl _, hexpanded hcase⟩
    | false =>
      obtain ⟨hfalse, hrank⟩ := hsame hcase
      obtain ⟨i, hi⟩ := hranked f ⟨id, hextends.old hfalse⟩
      have hcloser := (Bool.or_eq_false_iff.1 (hnew.symm.trans hcase)).2
      rw [← hold hfalse, hi] at hcloser
      exact ⟨i, by simpa using hcloser, hrank.trans hi⟩
  refine ⟨hother, fun hfalse => (hsame hfalse).2, hexpanded, hreached, ?_, ?_⟩
  · rintro k g ⟨i, hik, hi⟩
    by_cases hg : g = f
    · subst hg
      cases hcase : s'.session.isNew with
      | false => exact ⟨i, hik, (hsame hcase).2.trans hi⟩
      | true =>
        have hfalse : isNew = false := by
          by_contra htrue
          rw [rank?, hextends.fresh (by simpa using htrue)] at hi
          cases hi
        have hcloser := hnew.symm.trans hcase
        rw [hfalse, ← hold hfalse, hi] at hcloser
        have hlt : depth < i := by simpa using hcloser
        exact ⟨depth, by omega, hexpanded hcase⟩
    · exact ⟨i, hik, (hother g hg).trans hi⟩
  · rintro g ⟨i, hi⟩
    rcases hextends.only g i hi with hbefore | rfl
    · by_cases hg : g = f
      · subst hg
        exact hreached.imp fun _ h => h.2
      · rw [hother g hg]
        exact hranked g ⟨i, hbefore⟩
    · exact hreached.imp fun _ h => h.2

end Ranks

namespace DepthFirst

/-- Settings of a depth-first search up to a depth. -/
structure Limited (limit : Nat) (c : Config) : Prop where
  matchDepth : c.matchDepth = true
  depthLimit : c.depthLimit = some limit
  memoryBudget : c.memoryBudget = none

/-- While its books are quiet, a search up to a depth has covered each layer below the limit, but for
what is open in nodes that are not deeper. -/
structure Layered (m : Model) (s₀ : State) (limit : Nat) (nodes : List Node) (s : Search) :
    Prop where
  honest : s.Honest m.program m.symmetry
  steady : s.explorer.Steady m
  limited : Limited limit s.config
  running : s.session.Quiet → s.session.done = false ∧ s.session.ignored = false
  depth : s.session.isNew = true → s.session.depth = s.explorer.depth
  ranked : ∀ f, s.explorer.table.Holds f → ∃ i, s.rank? f = some i
  sees : m.Sees (s.Within 0) s₀
  layers : s.session.Quiet → ∀ k < limit,
    m.Covers (fun f => s.rank? f = some k) (s.Within (k + 1)) (nodes.rtake (k + 1))

variable {m : Model} {s₀ : State} {limit k : Nat} {s s' t : Search} {nodes nodes' : List Node}
  {f : Fingerprint} {x : Explorer} {a a' : Agenda} {move : Move} {n : Node}

theorem Layered.becomes (hs : Layered m s₀ limit nodes s) {b : Session} (h : s.Becomes x b s')
    (hgenuine : x.Genuine m.program m.symmetry) (hsteady : x.Steady m)
    (htable : x.table = s.explorer.table) (hdepths : b.depths = s.session.depths)
    (hb : SameFindings b s.session) (hdone : b.done = s.session.done)
    (hignored : s.session.ignored = false → b.ignored = false)
    (hdepth : b.isNew = true → b.depth = x.depth)
    (hlayers : s.session.Quiet → ∀ k < limit,
      m.Covers (fun f => s.rank? f = some k) (s.Within (k + 1)) (nodes'.rtake (k + 1))) :
    Layered m s₀ limit nodes' s' := by
  have hrank : s'.rank? = s.rank? := by
    funext f
    rw [rank?, rank?, h.explorer, h.session, htable, hdepths]
  have hquiet : s'.session.Quiet → s.session.Quiet := h.quiet hb
  have hwithin : s'.Within = s.Within := by
    unfold Within
    rw [hrank]
  refine ⟨hs.honest.becomes h hgenuine hb.errors, h.explorer ▸ hsteady, h.config ▸ hs.limited,
    ?_, ?_, ?_, ?_, ?_⟩
  · intro hq
    obtain ⟨hrunning, hkept⟩ := hs.running (hquiet hq)
    rw [h.session]
    exact ⟨hdone.trans hrunning, hignored hkept⟩
  · rw [h.session, h.explorer]
    exact hdepth
  · rw [h.explorer, htable, hrank]
    exact hs.ranked
  · rw [hwithin]
    exact hs.sees
  · rw [hrank, hwithin]
    exact fun hq => hlayers (hquiet hq)

theorem Layered.reranks (hs : Layered m s₀ limit nodes s)
    (hstep : s.explorer.Advances a move a' n f t.explorer) (h : s.Becomes t.explorer s.session t)
    (hbooked : t.Booked [] s') : s.Reranks f (s.explorer.depth + 1) s' := by
  obtain ⟨hdistinct, hextends⟩ := hs.steady.table.add hstep.added
  obtain ⟨errors, constraints, done, ignored, hsession⟩ := hbooked.session
  have htop : t.explorer.stateId = n.stateId := by
    rw [Explorer.stateId, hstep.trail]
  have hdepth : t.explorer.depth = s.explorer.depth + 1 := by
    rw [Explorer.depth, hstep.trail]
    rfl
  rw [h.session, h.config, hs.limited.matchDepth] at hsession
  rw [← hbooked.explorer.table] at hdistinct hextends
  refine Search.reranks hextends hdistinct hs.ranked ?_ ?_
  · rw [hsession, ← htop, ← hdepth]
    simp only [Session.advance, Bool.true_and]
  · rw [hsession, ← htop, ← hdepth]
    simp only [Session.advance, Bool.true_and]

/-- One layer after a step. The new node is at depth `below.length + 1`, so it counts for deeper
layers only. -/
theorem covers_layer (hm : m.Exact) {x' : Explorer} (hx : x.Steady m)
    (hgenuine : x.Genuine m.program m.symmetry) (hstep : x.Advances a move a' n f x')
    (hholds : m.program.Holds n.state n.fault) (hranks : s.Reranks f (x.depth + 1) s')
    (hlayer : m.Covers (fun g => s.rank? g = some k) (s.Within (k + 1))
      (x.trail.chain.rtake (k + 1))) :
    m.Covers (fun g => s'.rank? g = some k) (s'.Within (k + 1))
      ((if s'.session.isNew then x'.trail.chain else x'.trail.chain.tail).rtake (k + 1)) := by
  have hwellFormed := (hstep.reached hgenuine).wellFormed hm.sound
  have hchain : x'.trail.chain =
      n :: { x.trail.top with agenda := some a' } :: x.trail.below := by
    rw [hstep.trail]
    rfl
  have hlength : x.trail.below.length = x.depth := rfl
  have hother : ∀ g, s'.rank? g = some k → g ≠ f → s.rank? g = some k := fun g hg hne =>
    (hranks.other g hne).symm.trans hg
  -- The layer gains the new fingerprint only where the new node is expanded and in the layer.
  have hgains : ∀ g, s'.rank? g = some k → s.rank? g = some k ∨
      g = f ∧ s'.session.isNew = true ∧ k = x.depth + 1 := by
    intro g hg
    by_cases hgf : g = f
    · subst hgf
      cases hnew : s'.session.isNew with
      | false => exact .inl ((hranks.same hnew).symm.trans hg)
      | true =>
        have hdepth := Option.some.inj ((hranks.expanded hnew).symm.trans hg)
        exact .inr ⟨rfl, rfl, hdepth.symm⟩
    · exact .inl (hother g hg hgf)
  obtain rfl := hx.model
  rcases Nat.lt_or_ge k x.depth with hlt | hge
  · have hold : x.trail.chain.rtake (k + 1) = x.trail.below.rtake (k + 1) :=
      rtake_cons_of_le hlt
    have hnew : (if s'.session.isNew then x'.trail.chain else x'.trail.chain.tail).rtake (k + 1) =
        x.trail.below.rtake (k + 1) := by
      rw [hchain]
      split
      · rw [rtake_cons_of_le (by rw [List.length_cons]; omega), rtake_cons_of_le hlt]
      · rw [List.tail_cons, rtake_cons_of_le hlt]
    rw [hold] at hlayer
    rw [hnew]
    refine (hlayer.mono (hranks.falls _) fun _ _ _ h => h).of_subset fun g hg => ?_
    exact (hgains g hg).resolve_right fun h => by omega
  · have hall : x.trail.chain.rtake (k + 1) = x.trail.chain :=
      rtake_of_length_le (Nat.succ_le_succ hge)
    have hf : s'.Within (k + 1) f := by
      obtain ⟨i, hi, hrank⟩ := hranks.reached
      exact ⟨i, by omega, hrank⟩
    rw [hall] at hlayer
    have hadvanced := hlayer.advance hstep hx.unshuffled hwellFormed hholds (hranks.falls _) hf
    cases hnew : s'.session.isNew with
    | false =>
      rw [if_neg (by simp), hchain, List.tail_cons,
        rtake_of_length_le (l := _ :: x.trail.below) (Nat.succ_le_succ hge)]
      refine hadvanced.of_subset fun g hg => ?_
      exact (hgains g hg).resolve_right fun h => by simp [hnew] at h
    | true =>
      rw [if_pos rfl, hchain]
      rcases Nat.eq_or_lt_of_le hge with heq | hgt
      · rw [rtake_cons_of_le (by rw [List.length_cons]; omega),
          rtake_of_length_le (l := _ :: x.trail.below) (Nat.succ_le_succ hge)]
        refine hadvanced.of_subset fun g hg => ?_
        exact (hgains g hg).resolve_right fun h => by omega
      · rw [rtake_of_length_le (by rw [List.length_cons, List.length_cons]; omega)]
        have hmore : x.model.Covers (fun g => s.rank? g = some k) (s'.Within (k + 1))
            (n :: { x.trail.top with agenda := some a' } :: x.trail.below) :=
          hadvanced.mono (fun _ h => h) fun _ _ _ hpending =>
            hpending.subset fun _ hk => List.mem_cons_of_mem n hk
        refine (hmore.union (hm.covers_new hwellFormed hstep.fingerprint hstep.fresh)).of_subset
          fun g hg => ?_
        exact (hgains g hg).imp_right fun h => h.1

theorem Layered.moved (hm : m.Exact) (hs : Layered m s₀ limit s.explorer.trail.chain s)
    (hforward : s.explorer.forward = (.ok true, t.explorer))
    (h : s.Becomes t.explorer s.session t) (hbooked : t.Booked [] s') :
    Layered m s₀ limit (openNodes s') s' := by
  obtain ⟨a, move, a', n, f, hstep⟩ := Explorer.forward_true hforward
  have ht := hs.honest.becomes h (hs.honest.forward hforward) rfl
  have hsteady := hs.steady.advances hstep
  have hranks := hs.reranks hstep h hbooked
  have hbudget : t.config.memoryBudget = none := by
    rw [h.config]
    exact hs.limited.memoryBudget
  have hbefore : s'.session.Quiet → s.session.Quiet ∧ s'.session.errors = t.session.errors := by
    intro hquiet
    obtain ⟨hq, herrors⟩ := hbooked.before hquiet
    exact ⟨h.quiet ⟨rfl, rfl, rfl⟩ hq, herrors⟩
  refine ⟨ht.booked hbooked, hbooked.explorer.steady hsteady, ?_, ?_, ?_, hranks.ranked,
    hs.sees.mono (hranks.falls 0), ?_⟩
  · rw [hbooked.config, h.config]
    exact hs.limited
  · intro hquiet
    obtain ⟨hq, herrors⟩ := hbefore hquiet
    obtain ⟨hdone, hignored, _⟩ := hbooked.quiet herrors hbudget
    rw [hdone, hignored, h.session]
    exact hs.running hq
  · intro _
    rw [hbooked.depth, hbooked.explorer.depth]
  · intro hquiet k hk
    obtain ⟨hq, herrors⟩ := hbefore hquiet
    have hholds := hbooked.holds_of_quiet ht.properties herrors hbudget
    unfold Explorer.state Explorer.fault at hholds
    rw [hsteady.model, hstep.trail] at hholds
    unfold openNodes
    rw [hbooked.untouched hbudget]
    exact covers_layer hm hs.steady hs.honest.explorer hstep hholds hranks (hs.layers hq k hk)

theorem Layered.proceeds (hm : m.Exact) (hs : Layered m s₀ limit s.explorer.trail.chain s)
    (hdepth : s.session.isNew = true → s.session.depth = s.explorer.depth) (h : Proceeds s s') :
    Layered m s₀ limit (openNodes s') s' := by
  cases h with
  | moved hforward h hbooked => exact hs.moved hm hforward h hbooked
  | @processed _ tally hforward h =>
    obtain ⟨agenda, hx, hnone, _⟩ := Explorer.decide_none (Explorer.forward_false hforward)
    refine hs.becomes h (hs.honest.forward hforward) ?_ ?_ rfl ⟨rfl, rfl, rfl⟩ rfl id ?_ ?_
    · rw [hx]
      exact hs.steady.setAgenda _
    · rw [hx]
      rfl
    · rw [hx]
      exact hdepth
    · intro hquiet k hk
      have hbelow := (hs.layers hquiet k hk).drop_oldest (.inr (.inr hnone))
      refine hbelow.mono (fun _ h => h) fun _ _ _ hpending => hpending.subset fun n hn => ?_
      unfold openNodes
      rw [hx]
      split
      · exact rtake_subset_cons _ _ _ hn
      · exact hn

theorem Layered.leave (hs : Layered m s₀ limit (openNodes s) s)
    (hleaf : isLeaf s s.session.ignored = true) (hquiet : s.session.Quiet) (hk : k < limit) :
    m.Covers (fun f => s.rank? f = some k) (s.Within (k + 1))
      (s.explorer.trail.below.rtake (k + 1)) := by
  have hlayer := hs.layers hquiet k hk
  unfold openNodes at hlayer
  by_cases hnew : s.session.isNew = true
  · rw [if_pos hnew] at hlayer
    unfold isLeaf depthLimitReached at hleaf
    rw [(hs.running hquiet).2, hnew, hs.limited.depthLimit, hs.depth hnew] at hleaf
    simp only [Bool.not_true, Bool.or_false, Bool.false_or, Bool.or_eq_true, Option.any_some,
      decide_eq_true_eq] at hleaf
    refine hlayer.drop_oldest ?_
    rcases hleaf with hend | hdeep
    · exact .inr (.inl hend)
    · exact .inl (Nat.le_trans hk hdeep)
  · rw [if_neg hnew] at hlayer
    exact hlayer

/-- A search that ends with quiet books has nothing open below the limit. -/
def Finished (m : Model) (s₀ : State) (limit : Nat) (s : Search) : Prop :=
  s.session.Quiet → Layered m s₀ limit [] s

theorem Layered.turns (hm : m.Exact) (hs : Layered m s₀ limit (openNodes s) s) {more : Bool}
    (h : Turns s more s') :
    (more = true → Layered m s₀ limit (openNodes s') s') ∧
      (more = false → Finished m s₀ limit s') := by
  cases h with
  | stopped h =>
    refine ⟨nofun, fun _ hquiet => ?_⟩
    obtain ⟨b, hbecomes, herrors, hrunning, _⟩ := h
    rw [hbecomes.session] at hquiet
    obtain ⟨rfl, hdone⟩ := hrunning hquiet.terminated
    cases hdone.symm.trans (hs.running hquiet).1
  | exhausted hleaf hbottom h =>
    refine ⟨nofun, fun _ hquiet => ?_⟩
    refine hs.becomes h hs.honest.explorer hs.steady rfl rfl ⟨rfl, rfl, rfl⟩ rfl (fun _ => rfl)
      hs.depth fun hq k hk => ?_
    have hlayer := hs.leave hleaf hq hk
    rwa [Explorer.below_of_backtrack?_none hbottom] at hlayer
  | @back t _ _ _ hleaf hback h hproceeds =>
    refine ⟨fun _ => ?_, nofun⟩
    obtain ⟨hchain, htable⟩ := Explorer.chain_of_backtrack? hback
    have ht : Layered m s₀ limit t.explorer.trail.chain t := by
      refine hs.becomes h (Explorer.backtrack?_genuine hs.honest.explorer hback)
        (hs.steady.backtrack? hback) htable rfl ⟨rfl, rfl, rfl⟩ rfl (fun _ => rfl) nofun ?_
      rw [hchain]
      exact fun hq k hk => hs.leave hleaf hq hk
    exact ht.proceeds hm ht.depth hproceeds
  | @on t _ hleaf h hproceeds =>
    refine ⟨fun _ => ?_, nofun⟩
    simp only [isLeaf, Bool.or_eq_false_iff, Bool.not_eq_false'] at hleaf
    have ht : Layered m s₀ limit t.explorer.trail.chain t := by
      refine hs.becomes h hs.honest.explorer hs.steady rfl rfl ⟨rfl, rfl, rfl⟩ rfl (fun _ => rfl)
        hs.depth fun hq k hk => ?_
      have hlayer := hs.layers hq k hk
      unfold openNodes at hlayer
      rw [if_pos hleaf.1.1.2] at hlayer
      rw [h.explorer]
      exact hlayer
    exact ht.proceeds hm ht.depth hproceeds

theorem Layered.start (hm : s.explorer.model.Exact) (hsteady : s.explorer.Steady s.explorer.model)
    (hx : s.explorer.Initial s₀ f) (hlimited : Limited limit s.config)
    (h : s.Becomes s.explorer (.start s.explorer) s')
    (hs' : s'.Honest s.explorer.model.program s.explorer.model.symmetry) :
    Layered s.explorer.model s₀ limit (openNodes s') s' := by
  have hdepth : s.explorer.depth = 0 := congrArg List.length hx.below
  have hrank : s'.rank? f = some 0 := by
    rw [rank?, h.explorer, h.session, hx.number, Option.bind_some]
    simp only [Session.start, Std.TreeMap.getElem?_insert_self, hdepth]
  have honly : ∀ g i, s'.rank? g = some i → g = f ∧ i = 0 := by
    intro g i hg
    have hnumber := hg
    rw [rank?, h.explorer] at hnumber
    obtain ⟨id, hid, _⟩ := Option.bind_eq_some_iff.1 hnumber
    obtain rfl := hx.only g id hid
    exact ⟨rfl, Option.some.inj (hg.symm.trans hrank)⟩
  have hexplored := hx.explored hm (V := s'.Within 0) ⟨0, Nat.le_refl 0, hrank⟩
    fun g ⟨i, _, hi⟩ => (honly g i hi).1
  refine ⟨hs', h.explorer ▸ hsteady, h.config ▸ hlimited, ?_, ?_, ?_, hexplored.sees, ?_⟩
  · intro _
    rw [h.session]
    exact ⟨rfl, rfl⟩
  · rw [h.session, h.explorer]
    exact fun _ => rfl
  · rintro g ⟨id, hid⟩
    rw [h.explorer] at hid
    exact ⟨0, hx.only g id hid ▸ hrank⟩
  · intro _ k _
    have hopen : openNodes s' = [s.explorer.trail.top] := by
      unfold openNodes Trail.chain
      rw [h.session, h.explorer, hx.below]
      rfl
    have hmore : s.explorer.model.Covers (s'.Within 0) (s'.Within (k + 1))
        [s.explorer.trail.top] :=
      hexplored.covers.mono (fun g ⟨i, hi, hg⟩ => ⟨i, by omega, hg⟩) fun _ _ _ h => h
    rw [hopen, rtake_of_length_le (by simp)]
    refine hmore.of_subset fun g hg => ?_
    exact ⟨k, by have := (honly g k hg).2; omega, hg⟩

theorem Layered.execution (hs : Layered m s₀ limit [] s) (hquiet : s.session.Quiet)
    (hinitial : m.program.initialState = .ok s₀) {choices : List (ThreadId × Option Int64)}
    {state : State} {fault : Option Uncaught}
    (hexecution : m.program.Execution m.symmetry choices state fault)
    (hlength : choices.length ≤ limit) :
    m.Sees (s.Within choices.length) state ∧ (choices ≠ [] → m.program.Holds state fault) := by
  induction hexecution with
  | start hstart =>
    cases hinitial.symm.trans hstart
    exact ⟨hs.sees, fun hne => absurd rfl hne⟩
  | @step choices r r' last fault t data _ hstep ih =>
    rw [List.length_append, List.length_singleton] at hlength ⊢
    obtain ⟨w, f, hw, hf, ⟨i, hi, hrank⟩, hsimilar⟩ := (ih (by omega)).1
    have hlayer := hs.layers hquiet i (by omega)
    rw [rtake_of_length_le (Nat.zero_le _)] at hlayer
    obtain ⟨hsees, hholds⟩ := hlayer.step hw hf hsimilar hrank hstep
    exact ⟨hsees.mono fun g ⟨j, hj, hg⟩ => ⟨j, by omega, hg⟩, fun _ => hholds⟩

theorem Layered.run {p : Program} {c : Config} (hp : p.Sound) (hplain : p.Unfiltered)
    (hc : c.Exact) (hdfs : c.strategy = .dfs) (hlimited : Limited limit c) (hs : s.Fresh p c)
    {fuel : Nat} {report : Report} (h : s.perform (Search.run fuel) = (.ok (some report), s')) :
    ∃ s₀ t, s.explorer.model.program.initialState = .ok s₀ ∧
      Finished s.explorer.model s₀ limit t ∧
      report = .ofSession { t.session with done := true } ∧ s'.explorer = t.explorer := by
  obtain ⟨hm, hsteady, s₀, f, hinitial, hx⟩ := Explorer.start_initial hp hplain hc hs.start
  have hgenuine := hs.start.genuine
  have hhonest := hs.honest_model
  rw [← hgenuine.program] at hinitial
  rw [← hs.config] at hdfs hlimited
  have hstart : ∀ {t}, s.Becomes s.explorer (.start s.explorer) t →
      Layered s.explorer.model s₀ limit (openNodes t) t := by
    intro t h
    obtain ⟨ht, _⟩ := hhonest.starts (.depthFirst hdfs h)
    exact Layered.start hm hsteady hx hlimited h ht
  obtain ⟨t, ht, hreport, hexplorer⟩ := run_invariant hdfs hstart (fun hv hturns => hv.turns hm hturns) h
  exact ⟨s₀, t, hinitial, ht, hreport, hexplorer⟩

end DepthFirst

end Search

/-- When a depth-first search that matches depths finds no error up to its limit, there is none: each
execution within the limit satisfies the default properties. Each of its states is isomorphic to one
whose fingerprint is in the table, and its own fingerprint is there unless the order of members that
tie makes the two differ. -/
theorem limited_run_covers {source path : String} {p : Program}
    (hp : Program.ofSource source path = .ok p) (hplain : p.Unfiltered) {c : Config} (hc : c.Exact)
    (hdfs : c.strategy = .dfs) {limit : Nat} (hlimited : Search.DepthFirst.Limited limit c)
    {s s' : Search} (hs : s.Fresh p c) {fuel : Nat} {report : Report}
    (h : s.perform (Search.run fuel) = (.ok (some report), s')) (herrors : report.errors = [])
    (hterminated : report.terminated = false) {choices : List (ThreadId × Option Int64)}
    {state : State} {fault : Option Uncaught}
    (hexecution : p.Execution c.symmetry choices state fault) (hlength : choices.length ≤ limit) :
    (choices ≠ [] → p.Holds state fault) ∧
      (∃ t f, state.Isomorphic t ∧ s'.explorer.model.fingerprint t = .ok f ∧
        s'.explorer.table.Holds f) ∧
      (state.Unambiguous s'.explorer.model.policy s'.explorer.model.masks →
        ∃ f, s'.explorer.model.fingerprint state = .ok f ∧ s'.explorer.table.Holds f) := by
  have hsound := ofSource_sound hp
  have hgenuine := hs.start.genuine
  obtain ⟨s₀, t, hinitial, hfinished, rfl, hexplorer⟩ :=
    Search.DepthFirst.Layered.run hsound hplain hc hdfs hlimited hs h
  have hquiet : t.session.Quiet := ⟨herrors, hterminated⟩
  have hlayered := hfinished hquiet
  have hsettled := (hexecution.wellFormed hsound).toCoherent.settled
  rw [← hgenuine.program, ← hgenuine.symmetry] at hexecution
  obtain ⟨hsees, hholds⟩ := hlayered.execution hquiet hinitial hexecution hlength
  rw [hgenuine.program] at hholds
  obtain ⟨w, f, hw, hf, ⟨i, _, hrank⟩, R, hcorr⟩ := hsees
  have htable : t.explorer.table.Holds f := by
    obtain ⟨id, hid, _⟩ := Option.bind_eq_some_iff.1 hrank
    exact ⟨id, hid⟩
  rw [hgenuine.program] at hw
  have hiso := hcorr.isomorphic hsettled hw.toCoherent.settled
  rw [hexplorer, hlayered.steady.model]
  refine ⟨hholds, ⟨w, f, hiso, hf, htable⟩, fun hclear => ⟨f, ?_, htable⟩⟩
  exact (fingerprint_mirrors (fun _ hS => hS) hcorr.mirrors (hclear.orderedAlike w)).trans hf

/-- Up to four steps, which leave both counters on their way, nothing goes wrong. -/
theorem relay_limited : ∃ (s s' : Search) (report : Report),
    s.Fresh (relay (counter .ne 0))
      { Config.default with matchDepth := true, depthLimit := some 4 } ∧
    s.perform (Search.run 1000) = (.ok (some report), s') ∧ report.errors = [] ∧
    report.terminated = false ∧ report.constraints = [.depth 4] ∧
    ∀ choices state fault, (relay (counter .ne 0)).Execution .fast choices
        state fault → choices.length ≤ 4 →
      (choices ≠ [] → (relay (counter .ne 0)).Holds state fault) ∧
      (∃ t f, state.Isomorphic t ∧ s'.explorer.model.fingerprint t = .ok f ∧
        s'.explorer.table.Holds f) ∧
      (state.Unambiguous s'.explorer.model.policy s'.explorer.model.masks →
        ∃ f, s'.explorer.model.fingerprint state = .ok f ∧ s'.explorer.table.Holds f) := by
  have hrun : (Check.report? (relay (counter .ne 0))
      { Config.default with matchDepth := true, depthLimit := some 4 } 1000).map
        (fun report => (report.errors, report.terminated, report.constraints)) =
      some ([], false, [.depth 4]) := by
    decide +kernel
  obtain ⟨report, hreport, hfound⟩ := Option.map_eq_some_iff.1 hrun
  obtain ⟨s, s', hs, hperform⟩ := Check.report?_eq_some hreport
  obtain ⟨herrors, hrest⟩ := Prod.mk.inj hfound
  obtain ⟨hterminated, hconstraints⟩ := Prod.mk.inj hrest
  exact ⟨s, s', report, hs, hperform, herrors, hterminated, hconstraints,
    fun choices state fault hexecution hlength => limited_run_covers relay_source
      (relay_unfiltered _) ⟨rfl, rfl, rfl, rfl, rfl⟩ rfl ⟨rfl, rfl, rfl⟩ hs hperform herrors
      hterminated hexecution hlength⟩

end Interleave
