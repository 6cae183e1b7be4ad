import Grmdb.KeySearch

namespace Grmdb

variable {cols : List IxCol} {vals : List Value}

/-- What a key holds of a column: the bytes of an `int`, or a string without zero bytes with zero
bytes behind it up to the length of the column. -/
def IxCol.Stored : IxCol → Bytes → Prop
  | .int, a => a.length = 4
  | .char len, a => ∃ s : Bytes, s.length ≤ len ∧ (0 : UInt8) ∉ s ∧
      a = s ++ List.replicate (len - s.length) 0

/-- A key as rows store it, column by column. -/
def KeyStored : List IxCol → Bytes → Prop
  | [], key => key = []
  | col :: cols, key => ∃ front back, key = front ++ back ∧ col.Stored front ∧ KeyStored cols back

/-- The bytes of a column are the ones that `init_raw` gives for one of its values. -/
theorem IxCol.stored_iff {col : IxCol} {a : Bytes} :
    col.Stored a ↔ ∃ v, col.Holds v ∧ a = v.raw col.len := by
  cases col with
  | int =>
    constructor
    · intro hlen
      have hint : IsInt32 (readInt a) := readInt_bounds a
      refine ⟨.int (readInt a), hint, ?_⟩
      have hread : readInt (intBytes (readInt a)) = readInt a := readInt_intBytes hint
      have htake := readInt_injOn (Nat.le_of_eq (length_intBytes _).symm) (Nat.le_of_eq hlen.symm)
        hread
      rw [List.take_of_length_le (Nat.le_of_eq (length_intBytes _)),
        List.take_of_length_le (Nat.le_of_eq hlen)] at htake
      exact htake.symm
    · rintro ⟨v, hv, rfl⟩
      exact hv.length_raw
  | char len =>
    constructor
    · rintro ⟨s, hle, hclean, rfl⟩
      exact ⟨.string s, ⟨hle, hclean⟩, rfl⟩
    · rintro ⟨v, hv, rfl⟩
      obtain ⟨s, rfl, hle, hclean⟩ := hv.char
      exact ⟨s, hle, hclean, rfl⟩

/-- The stored keys are the keys of rows. -/
theorem keyStored_iff {key : Bytes} :
    KeyStored cols key ↔ ∃ us, List.Forall₂ IxCol.Holds cols us ∧ key = keyBytes cols us := by
  induction cols generalizing key with
  | nil =>
    constructor
    · intro h
      exact ⟨[], .nil, h⟩
    · rintro ⟨us, hus, rfl⟩
      cases hus
      rfl
  | cons col cols ih =>
    constructor
    · rintro ⟨front, back, rfl, hfront, hback⟩
      obtain ⟨v, hv, rfl⟩ := IxCol.stored_iff.mp hfront
      obtain ⟨us, hus, rfl⟩ := ih.mp hback
      exact ⟨v :: us, .cons hv hus, rfl⟩
    · rintro ⟨us, hus, rfl⟩
      cases hus with
      | cons hv hus =>
        exact ⟨_, _, rfl, IxCol.stored_iff.mpr ⟨_, hv, rfl⟩, ih.mpr ⟨_, hus, rfl⟩⟩

/-- A file whose pages hold stored keys only holds keys of rows. -/
theorem IxFile.ofRows_of_stored {s : IxFile (IxKey cols)}
    (hkeys : ∀ p n, s.pages p = some n → ∀ e ∈ n.entries, KeyStored cols e.1.1) : s.OfRows := by
  intro p n hp e he
  obtain ⟨us, hus, hbytes⟩ := keyStored_iff.mp (hkeys p n hp e he)
  exact ⟨us, hus, Subtype.ext (hbytes.trans (ofValues_val hus).symm)⟩

/-- A stored key compares with values as with the bytes that `init_raw` gives for them, and in a
B+ tree both searches of every node end at the same slot and child. -/
theorem ixCompare_overloads_agree {key' : IxKey cols}
    (hvals : List.Forall₂ IxCol.Holds cols vals) (hraw : key'.1 = keyBytes cols vals) :
    (∀ key, KeyStored cols key →
        (ixCompareValues cols key vals).sign = (ixCompare cols key key'.1).sign) ∧
      ∀ (L : IxLayout (IxKey cols)) {s : IxFile (IxKey cols)}
        {g : PagedTree.Labels PageNo (IxKey cols)} {ls : List PageNo}, BTree s g ls →
        (∀ p n, s.pages p = some n → ∀ e ∈ n.entries, KeyStored cols e.1.1) →
        ∀ p n, s.pages p = some n →
          n.lowerBoundValues L vals = n.lowerBoundBytes L key' ∧
            n.upperBoundValues L vals = n.upperBoundBytes L key' ∧
            n.internalLookupValues L vals = n.internalLookupBytes L key' := by
  have hkey' : IxKey.ofValues cols vals = key' :=
    Subtype.ext ((ofValues_val hvals).trans hraw.symm)
  constructor
  · intro key hkey
    obtain ⟨us, hus, rfl⟩ := keyStored_iff.mp hkey
    rw [hraw, ixCompareValues_eq hus hvals]
  · intro L s g ls htree hkeys p n hp
    have hrows : s.OfRows := IxFile.ofRows_of_stored hkeys
    have hsize := htree.firstKey_lt hp
    rw [IxNode.lowerBoundBytes_eq, IxNode.upperBoundBytes_eq, IxNode.internalLookupBytes_eq,
      ← hkey']
    exact ⟨IxNode.lowerBoundValues_eq (hrows hp) hvals hsize,
      IxNode.upperBoundValues_eq (hrows hp) hvals hsize,
      IxNode.internalLookupValues_eq (hrows hp) hvals hsize⟩

theorem ixCompare_overloads_agree_two :
    (ixCompareValues [.int, .char 3] [7, 0, 0, 0, 97, 0, 0] [.int 7, .string [97, 98]]).sign =
        (ixCompare [.int, .char 3] [7, 0, 0, 0, 97, 0, 0] [7, 0, 0, 0, 97, 98, 0]).sign ∧
      ∀ L, ∃ n, twoLeaves.pages 5 = some n ∧
        n.internalLookupValues L [.int 2] = n.internalLookupBytes L (smallKey 2) := by
  have hint : ∀ {i : Int}, -2 ^ 31 ≤ i → i < 2 ^ 31 → IxCol.int.Holds (.int i) :=
    fun hlo hhi => ⟨hlo, hhi⟩
  constructor
  · have hvals : List.Forall₂ IxCol.Holds [.int, .char 3] [.int 7, .string [97, 98]] :=
      .cons (hint (by decide) (by decide)) (.cons ⟨by decide, by decide⟩ .nil)
    have hkey : KeyStored [.int, .char 3] [7, 0, 0, 0, 97, 0, 0] :=
      ⟨[7, 0, 0, 0], [97, 0, 0], rfl, rfl, [97, 0, 0], [], rfl, ⟨[97], by decide, by decide, rfl⟩,
        rfl⟩
    exact (@ixCompare_overloads_agree _ _ ⟨[7, 0, 0, 0, 97, 98, 0], rfl⟩ hvals (by decide)).1 _ hkey
  · intro L
    have hkeys : ∀ p n, twoLeaves.pages p = some n → ∀ e ∈ n.entries, KeyStored [.int] e.1.1 := by
      intro p n hp e he
      exact ⟨e.1.1, [], (List.append_nil _).symm, e.1.2, rfl⟩
    have hvals : List.Forall₂ IxCol.Holds [.int] [.int 2] :=
      .cons (hint (by decide) (by decide)) .nil
    exact ⟨_, rfl, ((@ixCompare_overloads_agree _ _ (smallKey 2) hvals (by decide)).2 L
      twoLeaves_btree hkeys 5 _ rfl).2.2⟩

end Grmdb
