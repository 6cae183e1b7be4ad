import Grmdb.AssocMap
import Grmdb.Replacer
import Grmdb.Runs

namespace Grmdb

open AssocMap Runs

/-- `LRUReplacer` with the nodes of its list: `LRUhash_` maps a frame to an iterator, which is the
address of a node. `fresh` is an address that no node has had yet. -/
structure LruNodes where
  lruList : List (Nat × FrameId)
  lruHash : List (FrameId × Nat)
  fresh : Nat
  deriving DecidableEq

inductive LruCall where
  | pin (f : FrameId)
  | unpin (f : FrameId)
  | victim
  deriving DecidableEq

/-- A call with its answer. -/
inductive LruEvent where
  | pin (f : FrameId)
  | unpin (f : FrameId)
  | victim (r : Option FrameId)
  deriving DecidableEq

def LruEvent.call : LruEvent → LruCall
  | pin f => .pin f
  | unpin f => .unpin f
  | victim _ => .victim

namespace LruNodes

def empty : LruNodes := ⟨[], [], 0⟩

/-- The frames in `LRUlist_` from the front on. -/
def frames (s : LruNodes) : List FrameId := s.lruList.map Prod.snd

def size (s : LruNodes) : Nat := s.lruList.length

/-- The answer of `victim`, `none` for `false`. -/
def victim (s : LruNodes) : Option FrameId × LruNodes :=
  match s.lruList.getLast? with
  | none => (none, s)
  | some (_, f) =>
    (some f, { s with lruList := s.lruList.dropLast, lruHash := erase f s.lruHash })

/-- `none` stands for an iterator whose node is gone. -/
def pin (s : LruNodes) (f : FrameId) : Option LruNodes :=
  match lookup f s.lruHash with
  | none => some s
  | some a =>
    if a ∈ s.lruList.map Prod.fst then
      some { s with
        lruList := s.lruList.filter fun node => node.1 ≠ a
        lruHash := erase f s.lruHash }
    else none

def unpin (s : LruNodes) (f : FrameId) : LruNodes :=
  match lookup f s.lruHash with
  | some _ => s
  | none =>
    { lruList := (s.fresh, f) :: s.lruList
      lruHash := assign f s.fresh s.lruHash
      fresh := s.fresh + 1 }

end LruNodes

/-- The replacer with the calls so far. -/
structure LruHistory where
  nodes : LruNodes
  events : List LruEvent
  deriving DecidableEq

namespace LruHistory

def start : LruHistory := ⟨LruNodes.empty, []⟩

def step (s : LruHistory) : LruCall → Option LruHistory
  | .pin f => (s.nodes.pin f).map fun nodes => ⟨nodes, s.events ++ [.pin f]⟩
  | .unpin f => some ⟨s.nodes.unpin f, s.events ++ [.unpin f]⟩
  | .victim => some ⟨s.nodes.victim.2, s.events ++ [.victim s.nodes.victim.1]⟩

end LruHistory

/-- Which frames are evictable after an event, and since when: `n` events came before it. -/
def sinceAfter (since : FrameId → Option Nat) (n : Nat) : LruEvent → FrameId → Option Nat
  | .pin f | .victim (some f) => Function.update since f none
  | .unpin f => if since f = none then Function.update since f (some n) else since
  | .victim none => since

/-- The position of the call that last made the frame evictable, if it still is. -/
def evictableSince (events : List LruEvent) : FrameId → Option Nat :=
  (events.foldl (fun x e => (sinceAfter x.1 x.2 e, x.2 + 1)) (fun _ => none, 0)).1

/-- `victim` answers with the frame that has been evictable for the longest time. -/
def VictimRight (events : List LruEvent) : Option FrameId → Prop
  | none => ∀ f, evictableSince events f = none
  | some f => ∃ t, evictableSince events f = some t ∧
      ∀ g u, evictableSince events g = some u → g = f ∨ t < u

theorem evictableSince_concat (events : List LruEvent) (e : LruEvent) :
    evictableSince (events ++ [e]) = sinceAfter (evictableSince events) events.length e := by
  have hcount : ∀ (events : List LruEvent) (x : (FrameId → Option Nat) × Nat),
      (events.foldl (fun x e => (sinceAfter x.1 x.2 e, x.2 + 1)) x).2 = x.2 + events.length := by
    intro events
    induction events with
    | nil => intro x; rfl
    | cons e events ih =>
      intro x
      rw [List.foldl_cons, ih, List.length_cons]
      omega
  rw [evictableSince, List.foldl_append]
  simp only [List.foldl_cons, List.foldl_nil, hcount, Nat.zero_add]
  rfl

namespace LruHistory

/-- List and hash are in step, and the list is ordered by the time since when its frames are
evictable, the longest at the back. -/
structure Inv (s : LruHistory) : Prop where
  addrs : (s.nodes.lruList.map Prod.fst).Nodup
  frames : s.nodes.frames.Nodup
  hash : ∀ f a, lookup f s.nodes.lruHash = some a ↔ (a, f) ∈ s.nodes.lruList
  keys : (s.nodes.lruHash.map Prod.fst).Nodup
  fresh : ∀ node ∈ s.nodes.lruList, node.1 < s.nodes.fresh
  evictable : ∀ f, f ∈ s.nodes.frames ↔ (evictableSince s.events f).isSome = true
  order : s.nodes.frames.Pairwise fun f g => ∀ t u, evictableSince s.events f = some t →
    evictableSince s.events g = some u → u < t
  before : ∀ f t, evictableSince s.events f = some t → t < s.events.length
  victims : ∀ pre r post, s.events = pre ++ .victim r :: post → VictimRight pre r

theorem inv_start : Inv start := by
  constructor <;> simp [start, LruNodes.empty, LruNodes.frames, evictableSince]

section Step

variable {s s' : LruHistory} {f g : FrameId} {e : LruEvent} {nodes : LruNodes}

theorem Inv.mem_frames (h : s.Inv) :
    f ∈ s.nodes.frames ↔ ∃ a, lookup f s.nodes.lruHash = some a := by
  simp only [LruNodes.frames, List.mem_map, h.hash]
  constructor
  · rintro ⟨⟨a, g⟩, hmem, rfl⟩
    exact ⟨a, hmem⟩
  · rintro ⟨a, hmem⟩
    exact ⟨(a, f), hmem, rfl⟩

/-- One more event of the history. -/
theorem Inv.victims_concat (h : s.Inv) (he : ∀ r, e = .victim r → VictimRight s.events r) :
    ∀ pre r post, s.events ++ [e] = pre ++ .victim r :: post → VictimRight pre r := by
  intro pre r post hsplit
  rcases List.eq_nil_or_concat' post with rfl | ⟨post, x, rfl⟩
  · obtain ⟨rfl, hx⟩ := List.append_inj' hsplit rfl
    exact he r (List.singleton_inj.mp hx)
  · rw [← List.cons_append, ← List.append_assoc] at hsplit
    obtain ⟨hevents, -⟩ := List.append_inj' hsplit rfl
    exact h.victims pre r post hevents

/-- An event that changes nothing. -/
theorem Inv.keep (h : s.Inv) (he : ∀ r, e = .victim r → VictimRight s.events r)
    (hsince : evictableSince (s.events ++ [e]) = evictableSince s.events) :
    Inv ⟨s.nodes, s.events ++ [e]⟩ := by
  refine ⟨h.addrs, h.frames, h.hash, h.keys, h.fresh, ?_, ?_, fun f t ht => ?_,
    h.victims_concat he⟩
  · rw [hsince]
    exact h.evictable
  · rw [hsince]
    exact h.order
  · rw [hsince] at ht
    rw [List.length_append]
    exact Nat.lt_add_right _ (h.before f t ht)

/-- An event that takes a frame out of list and hash. -/
theorem Inv.remove (h : s.Inv) (he : ∀ r, e = .victim r → VictimRight s.events r)
    (hsince : evictableSince (s.events ++ [e]) = Function.update (evictableSince s.events) f none)
    (hsub : nodes.lruList.Sublist s.nodes.lruList)
    (hmem : ∀ a g, (a, g) ∈ nodes.lruList ↔ (a, g) ∈ s.nodes.lruList ∧ g ≠ f)
    (hhash : nodes.lruHash = erase f s.nodes.lruHash) (hfresh : nodes.fresh = s.nodes.fresh) :
    Inv ⟨nodes, s.events ++ [e]⟩ := by
  have hframes : ∀ g, g ∈ nodes.frames ↔ g ∈ s.nodes.frames ∧ g ≠ f := by
    intro g
    simp only [LruNodes.frames, List.mem_map, Prod.exists, exists_eq_right, hmem,
      exists_and_right]
  have hsame : ∀ g, g ≠ f → evictableSince (s.events ++ [e]) g = evictableSince s.events g := by
    intro g hg
    rw [hsince, Function.update_of_ne hg]
  refine ⟨(hsub.map _).nodup h.addrs, (hsub.map _).nodup h.frames, fun g a => ?_, ?_, ?_,
    fun g => ?_, ?_, fun g t ht => ?_, h.victims_concat he⟩
  · rw [hhash, lookup_erase, hmem, ← h.hash]
    by_cases hg : g = f
    · simp [hg]
    · simp [hg, Ne.symm hg]
  · rw [hhash]
    exact nodup_keys_erase _ h.keys
  · intro node hnode
    rw [hfresh]
    exact h.fresh node (hsub.mem hnode)
  · rw [hframes]
    by_cases hg : g = f
    · simp [hg, hsince]
    · rw [hsame g hg]
      simp [hg, h.evictable]
  · refine (h.order.sublist (hsub.map Prod.snd)).imp_of_mem fun {x y} hx hy hxy => ?_
    rw [hsame x ((hframes x).mp hx).2, hsame y ((hframes y).mp hy).2]
    exact hxy
  · by_cases hg : g = f
    · simp [hg, hsince] at ht
    · rw [hsame g hg] at ht
      rw [List.length_append]
      exact Nat.lt_add_right _ (h.before g t ht)

theorem Inv.since_none (h : s.Inv) (hf : lookup f s.nodes.lruHash = none) :
    evictableSince s.events f = none := by
  have hnot : f ∉ s.nodes.frames := by
    intro hmem
    obtain ⟨a, ha⟩ := h.mem_frames.mp hmem
    rw [hf] at ha
    cases ha
  rw [h.evictable] at hnot
  simpa using hnot

/-- A frame has one node, and a node one frame. -/
theorem Inv.address_iff (h : s.Inv) {a b : Nat} (hf : lookup f s.nodes.lruHash = some a)
    (hg : (b, g) ∈ s.nodes.lruList) : b ≠ a ↔ g ≠ f := by
  constructor
  · rintro hb rfl
    have heq := ((h.hash g b).mpr hg).symm.trans hf
    exact hb (Option.some.inj heq)
  · rintro hgf rfl
    have heq := List.inj_on_of_nodup_map h.addrs hg ((h.hash f b).mp hf) rfl
    exact hgf (Prod.mk.inj heq).2

/-- The iterator of a frame leads to its node. -/
theorem Inv.pin (h : s.Inv) (f : FrameId) : ∃ s', s.step (.pin f) = some s' ∧ s'.Inv := by
  have hsince : evictableSince (s.events ++ [.pin f]) =
      Function.update (evictableSince s.events) f none := evictableSince_concat s.events (.pin f)
  cases hf : lookup f s.nodes.lruHash with
  | none =>
    refine ⟨⟨s.nodes, s.events ++ [.pin f]⟩, ?_, h.keep (fun r hr => by cases hr) ?_⟩
    · simp [step, LruNodes.pin, hf]
    · rw [hsince, ← h.since_none hf, Function.update_eq_self]
  | some a =>
    have hnode := (h.hash f a).mp hf
    have hin : a ∈ s.nodes.lruList.map Prod.fst := List.mem_map.mpr ⟨(a, f), hnode, rfl⟩
    refine ⟨⟨{ s.nodes with
        lruList := s.nodes.lruList.filter fun node => node.1 ≠ a
        lruHash := erase f s.nodes.lruHash }, s.events ++ [.pin f]⟩, ?_,
      h.remove (fun r hr => by cases hr) hsince List.filter_sublist (fun b g => ?_) rfl rfl⟩
    · simp only [step, LruNodes.pin, hf, if_pos hin, Option.map_some]
    · rw [List.mem_filter]
      constructor
      · rintro ⟨hg, hb⟩
        exact ⟨hg, (h.address_iff hf hg).mp (by simpa using hb)⟩
      · rintro ⟨hg, hgf⟩
        exact ⟨hg, by simpa using (h.address_iff hf hg).mpr hgf⟩

theorem Inv.unpin (h : s.Inv) (f : FrameId) : ∃ s', s.step (.unpin f) = some s' ∧ s'.Inv := by
  refine ⟨_, rfl, ?_⟩
  have hsince := evictableSince_concat s.events (.unpin f)
  cases hf : lookup f s.nodes.lruHash with
  | some a =>
    have hsome := (h.evictable f).mp (h.mem_frames.mpr ⟨a, hf⟩)
    have hne : evictableSince s.events f ≠ none := Option.isSome_iff_ne_none.mp hsome
    rw [LruNodes.unpin, hf]
    refine h.keep (fun r hr => by cases hr) ?_
    rw [hsince, sinceAfter, if_neg hne]
  | none =>
    have hnone := h.since_none hf
    rw [sinceAfter, if_pos hnone] at hsince
    have hnot : f ∉ s.nodes.frames := by
      rw [h.evictable, hnone]
      simp
    have hsame : ∀ g, g ≠ f → evictableSince (s.events ++ [.unpin f]) g =
        evictableSince s.events g := by
      intro g hg
      rw [hsince, Function.update_of_ne hg]
    have hself : evictableSince (s.events ++ [.unpin f]) f = some s.events.length := by
      rw [hsince, Function.update_self]
    have hne : ∀ g, g ∈ s.nodes.frames → g ≠ f := by
      rintro g hg rfl
      exact hnot hg
    rw [LruNodes.unpin, hf]
    refine ⟨?_, ?_, fun g a => ?_, ?_, ?_, fun g => ?_, ?_, fun g t ht => ?_,
      h.victims_concat fun r hr => by cases hr⟩
    · refine List.nodup_cons.mpr ⟨fun hmem => ?_, h.addrs⟩
      obtain ⟨node, hnode, heq⟩ := List.mem_map.mp hmem
      have hlt := h.fresh node hnode
      exact hlt.ne heq
    · exact List.nodup_cons.mpr ⟨hnot, h.frames⟩
    · rw [lookup_assign, List.mem_cons, ← h.hash]
      by_cases hg : f = g
      · subst hg
        simp [hf, eq_comm]
      · simp [hg, Ne.symm hg]
    · exact nodup_keys_assign _ _ h.keys
    · intro node hnode
      rcases List.mem_cons.mp hnode with rfl | hnode
      · exact Nat.lt_succ_self _
      · exact (h.fresh node hnode).trans (Nat.lt_succ_self _)
    · have hcons : (⟨(s.nodes.fresh, f) :: s.nodes.lruList, assign f s.nodes.fresh s.nodes.lruHash,
          s.nodes.fresh + 1⟩ : LruNodes).frames = f :: s.nodes.frames := rfl
      rw [hcons, List.mem_cons]
      by_cases hg : g = f
      · simp [hg, hself]
      · rw [hsame g hg, ← h.evictable]
        simp [hg]
    · refine List.pairwise_cons.mpr ⟨fun g hg t u ht hu => ?_, ?_⟩
      · rw [hself] at ht
        cases ht
        rw [hsame g (hne g hg)] at hu
        exact h.before g u hu
      · refine h.order.imp_of_mem fun {x y} hx hy hxy => ?_
        rw [hsame x (hne x hx), hsame y (hne y hy)]
        exact hxy
    · rw [List.length_append, List.length_singleton]
      by_cases hg : g = f
      · rw [hg, hself] at ht
        cases ht
        exact Nat.lt_succ_self _
      · rw [hsame g hg] at ht
        exact (h.before g t ht).trans (Nat.lt_succ_self _)

/-- At the back of the list stands the frame that has been evictable the longest. -/
theorem Inv.victim_right (h : s.Inv) : VictimRight s.events s.nodes.victim.1 := by
  unfold LruNodes.victim
  cases hlast : s.nodes.lruList.getLast? with
  | none =>
    intro f
    have hnil : s.nodes.frames = [] := by
      rw [LruNodes.frames, List.getLast?_eq_none_iff.mp hlast, List.map_nil]
    have hnot := h.evictable f
    simpa [hnil] using hnot
  | some node =>
    obtain ⟨a, f⟩ := node
    obtain ⟨front, hsplit⟩ := List.getLast?_eq_some_iff.mp hlast
    have hframes : s.nodes.frames = front.map Prod.snd ++ [f] := by
      rw [LruNodes.frames, hsplit, List.map_append]
      rfl
    have hf : f ∈ s.nodes.frames := by simp [hframes]
    obtain ⟨t, ht⟩ := Option.isSome_iff_exists.mp ((h.evictable f).mp hf)
    refine ⟨t, ht, fun g u hu => ?_⟩
    have hg : g ∈ s.nodes.frames := (h.evictable g).mpr (by rw [hu]; rfl)
    have horder := h.order
    rw [hframes] at hg horder
    rcases List.mem_append.mp hg with hg | hg
    · exact .inr ((List.pairwise_append.mp horder).2.2 g hg f (List.mem_singleton_self f) u t hu ht)
    · exact .inl (List.mem_singleton.mp hg)

theorem Inv.victim (h : s.Inv) : ∃ s', s.step .victim = some s' ∧ s'.Inv := by
  refine ⟨_, rfl, ?_⟩
  have hright := h.victim_right
  unfold LruNodes.victim at hright ⊢
  cases hlast : s.nodes.lruList.getLast? with
  | none =>
    rw [hlast] at hright
    refine h.keep (fun r hr => ?_) (evictableSince_concat s.events (.victim none))
    cases hr
    exact hright
  | some node =>
    obtain ⟨a, f⟩ := node
    rw [hlast] at hright
    obtain ⟨front, hsplit⟩ := List.getLast?_eq_some_iff.mp hlast
    have hfront : s.nodes.lruList.dropLast = front := by rw [hsplit, List.dropLast_concat]
    refine h.remove (fun r hr => ?_) (evictableSince_concat s.events (.victim (some f)))
      (List.dropLast_sublist _) (fun b g => ?_) rfl rfl
    · cases hr
      exact hright
    · dsimp only
      have hnodup := h.frames
      rw [LruNodes.frames, hsplit, List.map_append] at hnodup
      rw [hfront, hsplit, List.mem_append, List.mem_singleton]
      constructor
      · intro hg
        refine ⟨.inl hg, ?_⟩
        rintro rfl
        exact (List.nodup_append.mp hnodup).2.2 g (List.mem_map.mpr ⟨(b, g), hg, rfl⟩) g (by simp)
          rfl
      · rintro ⟨hg | hg, hgf⟩
        · exact hg
        · exact absurd (Prod.mk.inj hg).2 hgf

theorem Inv.step (h : s.Inv) (c : LruCall) : ∃ s', s.step c = some s' ∧ s'.Inv := by
  cases c with
  | pin f => exact h.pin f
  | unpin f => exact h.unpin f
  | victim => exact h.victim

/-- Every sequence of calls runs through. -/
theorem Inv.run (h : s.Inv) (calls : List LruCall) :
    ∃ s', Runs.run LruHistory.step s calls = some s' ∧ s'.Inv := by
  induction calls generalizing s with
  | nil => exact ⟨s, rfl, h⟩
  | cons c calls ih =>
    obtain ⟨mid, hstep, hmid⟩ := h.step c
    obtain ⟨s', hrun, hs'⟩ := ih hmid
    exact ⟨s', run_cons_eq_some.mpr ⟨mid, hstep, hrun⟩, hs'⟩

end Step

section Frames

variable {s : LruHistory} {r : LRUReplacer} {f : FrameId}

end Frames

theorem step_calls {s s' : LruHistory} {c : LruCall} (h : s.step c = some s') :
    s'.events.map LruEvent.call = s.events.map LruEvent.call ++ [c] := by
  cases c with
  | pin f =>
    obtain ⟨nodes, -, rfl⟩ := Option.map_eq_some_iff.mp h
    simp [LruEvent.call]
  | unpin f =>
    cases h
    simp [LruEvent.call]
  | victim =>
    cases h
    simp [LruEvent.call]

theorem run_calls {s s' : LruHistory} {calls : List LruCall}
    (h : run step s calls = some s') :
    s'.events.map LruEvent.call = s.events.map LruEvent.call ++ calls := by
  induction calls generalizing s with
  | nil =>
    cases h
    simp
  | cons c calls ih =>
    obtain ⟨mid, hstep, hrun⟩ := run_cons_eq_some.mp h
    rw [ih hrun, step_calls hstep, List.append_assoc]
    rfl

end LruHistory

/-- Whatever the calls: list and hash are in step, no iterator is ever dangling, and `victim`
takes the frame that has been evictable for the longest time. -/
theorem lru_order (calls : List LruCall) : ∃ s,
    run LruHistory.step .start calls = some s ∧ s.events.map LruEvent.call = calls ∧
    s.nodes.frames.Nodup ∧ (s.nodes.lruList.map Prod.fst).Nodup ∧
    (s.nodes.lruHash.map Prod.fst).Nodup ∧
    (∀ f a, lookup f s.nodes.lruHash = some a ↔ (a, f) ∈ s.nodes.lruList) ∧
    (∀ f, f ∈ s.nodes.frames ↔ (evictableSince s.events f).isSome = true) ∧
    s.nodes.size = s.nodes.frames.length ∧
    (∀ pre r post, s.events = pre ++ .victim r :: post → VictimRight pre r) ∧
    ∀ f ∈ s.nodes.frames, s.nodes.unpin f = s.nodes := by
  obtain ⟨s, hrun, h⟩ := LruHistory.inv_start.run calls
  refine ⟨s, hrun, LruHistory.run_calls hrun, h.frames, h.addrs, h.keys, h.hash, h.evictable,
    ?_, h.victims, fun f hf => ?_⟩
  · rw [LruNodes.size, LruNodes.frames, List.length_map]
  · obtain ⟨a, ha⟩ := h.mem_frames.mp hf
    rw [LruNodes.unpin, ha]

end Grmdb
