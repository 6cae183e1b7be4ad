import Mathlib

namespace Grmdb

abbrev FrameId := Nat

/-- A replacement policy: its operations and the frames it may choose from. Which of them
`victim` picks is left open. -/
class Replacer (ρ : Type) where
  victim : ρ → Option (FrameId × ρ)
  pin : ρ → FrameId → ρ
  unpin : ρ → FrameId → ρ
  Holds : ρ → FrameId → Prop
  holds_of_victim : ∀ {r r' : ρ} {f : FrameId}, victim r = some (f, r') → Holds r f
  holds_victim : ∀ {r r' : ρ} {f : FrameId}, victim r = some (f, r') →
    ∀ g, Holds r' g ↔ Holds r g ∧ g ≠ f
  holds_pin : ∀ (r : ρ) (f g : FrameId), Holds (pin r f) g ↔ Holds r g ∧ g ≠ f
  holds_unpin : ∀ (r : ρ) (f g : FrameId), Holds (unpin r f) g ↔ Holds r g ∨ g = f

/-- `LRUReplacer`. `LRUhash_` maps a frame to its node in `LRUlist_`; it is kept as the list of
its keys, since the node of a frame is the one that holds it. -/
structure LRUReplacer where
  lruList : List FrameId
  lruHash : List FrameId
  nodup : lruList.Nodup
  hash : ∀ f, f ∈ lruHash ↔ f ∈ lruList
  hash_nodup : lruHash.Nodup

namespace LRUReplacer

def empty : LRUReplacer := ⟨[], [], List.nodup_nil, fun _ => Iff.rfl, List.nodup_nil⟩

theorem mem_dropLast {l : List FrameId} (hl : l.Nodup) {f : FrameId} (hf : l.getLast? = some f)
    (g : FrameId) : g ∈ l.dropLast ↔ g ∈ l ∧ g ≠ f := by
  have hne : l ≠ [] := by
    rintro rfl
    cases hf
  have hsplit := List.dropLast_append_getLast hne
  have hlast : l.getLast hne = f := by
    rw [List.getLast?_eq_some_getLast hne] at hf
    exact Option.some.inj hf
  rw [hlast] at hsplit
  have hnot : f ∉ l.dropLast := by
    rw [← hsplit, List.nodup_append] at hl
    intro hmem
    exact hl.2.2 f hmem f (by simp) rfl
  constructor
  · intro hg
    refine ⟨List.mem_of_mem_dropLast hg, ?_⟩
    rintro rfl
    exact hnot hg
  · rintro ⟨hg, hgf⟩
    rw [← hsplit, List.mem_append, List.mem_singleton] at hg
    exact hg.resolve_right hgf

/-- The back of the list is the frame unpinned the longest time ago. -/
def victim (r : LRUReplacer) : Option (FrameId × LRUReplacer) :=
  match h : r.lruList.getLast? with
  | none => none
  | some f =>
    some (f,
      { lruList := r.lruList.dropLast
        lruHash := r.lruHash.erase f
        nodup := r.nodup.sublist (List.dropLast_sublist _)
        hash := by
          intro g
          rw [mem_dropLast r.nodup h, r.hash_nodup.mem_erase_iff, r.hash]
          exact and_comm
        hash_nodup := r.hash_nodup.erase f })

def pin (r : LRUReplacer) (f : FrameId) : LRUReplacer :=
  if f ∈ r.lruHash then
    { lruList := r.lruList.erase f
      lruHash := r.lruHash.erase f
      nodup := r.nodup.erase f
      hash := by
        intro g
        rw [r.nodup.mem_erase_iff, r.hash_nodup.mem_erase_iff, r.hash]
      hash_nodup := r.hash_nodup.erase f }
  else r

def unpin (r : LRUReplacer) (f : FrameId) : LRUReplacer :=
  if h : f ∈ r.lruHash then r
  else
    { lruList := f :: r.lruList
      lruHash := f :: r.lruHash
      nodup := List.nodup_cons.mpr ⟨fun hf => h ((r.hash f).mpr hf), r.nodup⟩
      hash := by
        intro g
        simp only [List.mem_cons, r.hash]
      hash_nodup := List.nodup_cons.mpr ⟨h, r.hash_nodup⟩ }

theorem victim_eq {r r' : LRUReplacer} {f : FrameId} (h : r.victim = some (f, r')) :
    r.lruList.getLast? = some f ∧ r'.lruList = r.lruList.dropLast := by
  unfold victim at h
  split at h
  · cases h
  next g hg =>
    cases Option.some.inj h
    exact ⟨hg, rfl⟩

theorem mem_pin (r : LRUReplacer) (f g : FrameId) :
    g ∈ (r.pin f).lruList ↔ g ∈ r.lruList ∧ g ≠ f := by
  unfold pin
  split
  next => rw [r.nodup.mem_erase_iff, and_comm]
  next h =>
    constructor
    · intro hg
      refine ⟨hg, ?_⟩
      rintro rfl
      exact h ((r.hash g).mpr hg)
    · exact And.left

theorem mem_unpin (r : LRUReplacer) (f g : FrameId) :
    g ∈ (r.unpin f).lruList ↔ g ∈ r.lruList ∨ g = f := by
  unfold unpin
  split
  next h =>
    constructor
    · exact Or.inl
    · rintro (hg | rfl)
      · exact hg
      · exact (r.hash g).mp h
  next => rw [List.mem_cons, or_comm]

instance : Replacer LRUReplacer where
  victim := victim
  pin := pin
  unpin := unpin
  Holds r f := f ∈ r.lruList
  holds_of_victim h := List.mem_of_getLast? (victim_eq h).1
  holds_victim {r r' f} h g := by
    obtain ⟨hf, hr⟩ := victim_eq h
    rw [hr, mem_dropLast r.nodup hf]
  holds_pin := mem_pin
  holds_unpin := mem_unpin

end LRUReplacer

end Grmdb
