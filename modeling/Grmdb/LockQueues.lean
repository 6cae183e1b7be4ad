import Grmdb.LockUnlock

namespace Grmdb

section UpdateFirst

variable {α : Type} {p : α → Bool} {f : α → α}

theorem mem_updateFirst {l : List α} {x : α} (h : x ∈ updateFirst p f l) :
    x ∈ l ∨ ∃ y, l.find? p = some y ∧ x = f y := by
  induction l with
  | nil => simp [updateFirst] at h
  | cons a l ih =>
    unfold updateFirst at h
    split at h
    next hp =>
      rcases List.mem_cons.mp h with h | h
      · exact Or.inr ⟨a, by simp [hp], h⟩
      · exact Or.inl (List.mem_cons_of_mem a h)
    next hp =>
      rcases List.mem_cons.mp h with h | h
      · exact Or.inl (by simp [h])
      · rcases ih h with h | ⟨y, hy, hxy⟩
        · exact Or.inl (List.mem_cons_of_mem a h)
        · exact Or.inr ⟨y, by simpa [hp] using hy, hxy⟩

theorem mem_updateFirst_find {l : List α} {y : α} (h : l.find? p = some y) :
    f y ∈ updateFirst p f l := by
  induction l with
  | nil => simp at h
  | cons a l ih =>
    unfold updateFirst
    by_cases hp : p a = true
    · obtain rfl : a = y := by simpa [hp] using h
      simp [hp]
    · rw [if_neg hp]
      exact List.mem_cons_of_mem a (ih (by simpa [hp] using h))

theorem filter_updateFirst_other {c : α → Bool} {l : List α}
    (hc : ∀ a, p a = true → c a = false) (hf : ∀ a, p a = true → c (f a) = false) :
    (updateFirst p f l).filter c = l.filter c := by
  induction l with
  | nil => rfl
  | cons a l ih =>
    unfold updateFirst
    split
    next hp => simp [hc a hp, hf a hp]
    next => simp [List.filter_cons, ih]

theorem filter_updateFirst_self {l : List α} (hf : ∀ a, p a = true → p (f a) = true) :
    (updateFirst p f l).filter p = (l.filter p).modifyHead f := by
  induction l with
  | nil => rfl
  | cons a l ih =>
    unfold updateFirst
    split
    next hp => simp [hp, hf a hp]
    next hp => simp [hp, ih]

theorem map_updateFirst {β : Type} {g : α → β} {l : List α} (hf : ∀ a, g (f a) = g a) :
    (updateFirst p f l).map g = l.map g := by
  induction l with
  | nil => rfl
  | cons a l ih =>
    unfold updateFirst
    split
    · simp [hf]
    · simp [ih]

end UpdateFirst

variable {κ : Type}

/-- The requests of `t`, in queue order. -/
def LockRequestQueue.own (q : LockRequestQueue κ) (t : TxnId) : List (LockRequest κ) :=
  q.requestQueue.filter fun r => decide (r.txnId = t)

theorem LockRequestQueue.find_eq_head (q : LockRequestQueue κ) (t : TxnId) :
    q.find t = (q.own t).head? := by
  rw [find, own, List.head?_filter]

theorem LockRequestQueue.find_mem {q : LockRequestQueue κ} {t : TxnId} {r : LockRequest κ}
    (h : q.find t = some r) : r ∈ q.requestQueue ∧ r.txnId = t := by
  refine ⟨List.mem_of_find?_eq_some h, ?_⟩
  simpa using List.find?_some h

theorem LockRequestQueue.own_update_self {q : LockRequestQueue κ} {t : TxnId}
    {f : LockRequest κ → LockRequest κ} (hf : ∀ r, (f r).txnId = r.txnId) :
    (q.update t f).own t = (q.own t).modifyHead f := by
  refine filter_updateFirst_self fun r hr => ?_
  simpa [hf] using hr

theorem LockRequestQueue.own_update_other {q : LockRequestQueue κ} {t u : TxnId} (hu : u ≠ t)
    {f : LockRequest κ → LockRequest κ} (hf : ∀ r, (f r).txnId = r.txnId) :
    (q.update t f).own u = q.own u := by
  have hne : ∀ r : LockRequest κ, decide (r.txnId = t) = true → decide (r.txnId = u) = false := by
    intro r hr
    simp only [decide_eq_true_eq] at hr
    simp [hr, Ne.symm hu]
  exact filter_updateFirst_other hne (fun r hr => by rw [hf]; exact hne r hr)

theorem LockRequestQueue.own_push_self (q : LockRequestQueue κ) (r : LockRequest κ) :
    (q.push r).own r.txnId = q.own r.txnId ++ [r] := by
  simp [push, own]

theorem LockRequestQueue.own_push_other (q : LockRequestQueue κ) {r : LockRequest κ} {u : TxnId}
    (hu : u ≠ r.txnId) : (q.push r).own u = q.own u := by
  simp [push, own, Ne.symm hu]

theorem LockRequestQueue.withdraw_requests (q : LockRequestQueue κ) (t : TxnId) :
    (q.withdraw t).requestQueue = q.requestQueue.filter fun r => decide (r.txnId ≠ t) := by
  unfold withdraw removeKeys clearUpgrading
  split <;> rfl

theorem LockRequestQueue.own_withdraw_other (q : LockRequestQueue κ) {t u : TxnId} (hu : u ≠ t) :
    (q.withdraw t).own u = q.own u := by
  rw [own, own, withdraw_requests, List.filter_filter]
  apply List.filter_congr
  intro r _
  by_cases hr : r.txnId = u <;> simp [hr, hu]

theorem LockRequestQueue.own_eraseP_other {l : List (LockRequest κ)} {t u : TxnId} (hu : u ≠ t) :
    (l.eraseP fun r => decide (r.txnId = t)).filter (fun r => decide (r.txnId = u)) =
      l.filter fun r => decide (r.txnId = u) := by
  induction l with
  | nil => rfl
  | cons r l ih =>
    by_cases hr : r.txnId = t
    · simp [hr, Ne.symm hu]
    · simp [hr, List.filter_cons, ih]

/-- `l'` is `l` with some requests of transactions in `P` granted. -/
def GrantsFor (P : TxnId → Prop) (l l' : List (LockRequest κ)) : Prop :=
  List.Forall₂ (fun r r' => r' = r ∨ P r.txnId ∧ r' = { r with granted := true }) l l'

section GrantsFor

variable {P Q : TxnId → Prop} {l l' l'' : List (LockRequest κ)}

theorem GrantsFor.cons {r r' : LockRequest κ}
    (hr : r' = r ∨ P r.txnId ∧ r' = { r with granted := true }) (h : GrantsFor P l l') :
    GrantsFor P (r :: l) (r' :: l') :=
  List.Forall₂.cons hr h

theorem GrantsFor.refl (l : List (LockRequest κ)) : GrantsFor P l l :=
  List.forall₂_same.mpr fun _ _ => Or.inl rfl

theorem GrantsFor.mono (h : GrantsFor P l l') (hPQ : ∀ t, P t → Q t) : GrantsFor Q l l' :=
  h.imp fun _ _ hr => hr.imp id fun hr => ⟨hPQ _ hr.1, hr.2⟩

theorem GrantsFor.trans (h : GrantsFor P l l') (h' : GrantsFor P l' l'') : GrantsFor P l l'' := by
  induction h generalizing l'' with
  | nil => exact h'
  | @cons r r' l l' hr _ ih =>
    cases h' with
    | @cons _ r'' _ l'' hr' hl' =>
      refine .cons ?_ (ih hl')
      rcases hr with rfl | ⟨hP, rfl⟩
      · exact hr'
      · rcases hr' with rfl | ⟨_, rfl⟩ <;> exact Or.inr ⟨hP, rfl⟩

theorem GrantsFor.append {m m' : List (LockRequest κ)} (h : GrantsFor P l l')
    (hm : GrantsFor P m m') : GrantsFor P (l ++ m) (l' ++ m') := by
  induction h with
  | nil => exact hm
  | cons hr _ ih => exact .cons hr ih

theorem GrantsFor.mem (h : GrantsFor P l l') {r' : LockRequest κ} (hr' : r' ∈ l') :
    ∃ r ∈ l, r' = r ∨ P r.txnId ∧ r' = { r with granted := true } := by
  induction h with
  | nil => simp at hr'
  | @cons a b l l' hab _ ih =>
    rcases List.mem_cons.mp hr' with rfl | hr'
    · exact ⟨a, List.mem_cons_self, hab⟩
    · obtain ⟨r, hr, h⟩ := ih hr'
      exact ⟨r, List.mem_cons_of_mem a hr, h⟩

theorem GrantsFor.mem_left (h : GrantsFor P l l') {r : LockRequest κ} (hr : r ∈ l) :
    ∃ r' ∈ l', r' = r ∨ r' = { r with granted := true } := by
  induction h with
  | nil => simp at hr
  | @cons a b l l' hab _ ih =>
    rcases List.mem_cons.mp hr with rfl | hr
    · exact ⟨b, List.mem_cons_self, hab.imp_right And.right⟩
    · obtain ⟨r', hr', h⟩ := ih hr
      exact ⟨r', List.mem_cons_of_mem b hr', h⟩

theorem GrantsFor.mem_granted (h : GrantsFor P l l') {r : LockRequest κ} (hr : r ∈ l)
    (hg : r.granted = true) : r ∈ l' := by
  obtain ⟨r', hr', he⟩ := h.mem_left hr
  have : { r with granted := true } = r := by
    cases r
    simp_all
  rw [this, or_self] at he
  exact he ▸ hr'

theorem GrantsFor.filter (h : GrantsFor P l l') (t : TxnId) :
    GrantsFor P (l.filter fun r => decide (r.txnId = t))
      (l'.filter fun r => decide (r.txnId = t)) := by
  refine List.rel_filter ?_ h
  rintro r r' (rfl | ⟨_, rfl⟩) <;> exact Iff.rfl

theorem GrantsFor.updateFirst (hP : ∀ t, Q t → P t) {t : TxnId} (ht : Q t) :
    GrantsFor P l (updateFirst (fun r => decide (r.txnId = t))
      (fun r => { r with granted := true }) l) := by
  induction l with
  | nil => exact .nil
  | cons r l ih =>
    unfold Grmdb.updateFirst
    split
    next hr =>
      have hrt : r.txnId = t := by simpa using hr
      exact .cons (Or.inr ⟨hP _ (hrt ▸ ht), rfl⟩) (GrantsFor.refl l)
    next => exact .cons (Or.inl rfl) ih

/-- Granting changes neither the transaction nor the mode nor the gaps of the first request. -/
theorem GrantsFor.find? (h : GrantsFor P l l') (t : TxnId) :
    (l'.find? fun r => decide (r.txnId = t)).map (fun r => (r.lockMode, r.gaps)) =
      (l.find? fun r => decide (r.txnId = t)).map (fun r => (r.lockMode, r.gaps)) := by
  have hf := h.filter t
  rw [← List.head?_filter, ← List.head?_filter]
  generalize l.filter _ = a at hf ⊢
  generalize l'.filter _ = b at hf ⊢
  cases hf with
  | nil => rfl
  | @cons r r' _ _ hr _ => rcases hr with rfl | ⟨_, rfl⟩ <;> rfl

end GrantsFor

@[simp] theorem Locks.set_self (locks : Locks κ) (id : LockDataId)
    (q : Option (LockRequestQueue κ)) : locks.set id q id = q := by
  simp [Locks.set]

theorem Locks.set_other {locks : Locks κ} {id id' : LockDataId} (h : id' ≠ id)
    (q : Option (LockRequestQueue κ)) : locks.set id q id' = locks id' := by
  simp [Locks.set, h]

section RegrantKeys

variable [LinearOrder κ] {fd : Fd} {q : LockRequestQueue κ}

theorem grantsKey_set_update {locks : Locks κ} {rid : Rid} {queueRec : LockRequestQueue κ}
    (hrec : locks (.record fd rid) = some queueRec) (t : TxnId) (k : InsertKey κ) :
    q.grantsKey fd (locks.set (.record fd rid)
      (some (queueRec.update t fun r => { r with granted := true }))) k =
      q.grantsKey fd locks k := by
  unfold LockRequestQueue.grantsKey
  by_cases hk : k.rid = rid
  · subst hk
    have hgrant : GrantsFor (fun _ => True) queueRec.requestQueue
        (queueRec.update t fun r => { r with granted := true }).requestQueue :=
      GrantsFor.updateFirst (fun _ h => h) trivial
    have hfind := congrArg (Option.map Prod.fst) (hgrant.find? k.txnId)
    simp only [Option.map_map, Function.comp_def] at hfind
    simp only [Locks.set_self, hrec, Option.bind_some]
    congr 2
    exact congrArg (· = some LockMode.exlucsive) hfind
  · rw [Locks.set_other (by simpa using hk)]

theorem grantsKey_find {locks : Locks κ} {k : InsertKey κ} {queueRec : LockRequestQueue κ}
    (hrec : locks (.record fd k.rid) = some queueRec) (h : q.grantsKey fd locks k = true) :
    ∃ r, queueRec.find k.txnId = some r ∧ r.lockMode = .exlucsive := by
  simp only [LockRequestQueue.grantsKey, hrec, Option.bind_some, Bool.and_eq_true,
    decide_eq_true_eq] at h
  exact Option.map_eq_some_iff.mp h.2

/-- What the loop over the insert keys does: the keys it grants wait no longer, and on the
records only requests of their transactions are granted. -/
structure KeysRegranted (fd : Fd) (q : LockRequestQueue κ) (keys : List (InsertKey κ))
    (locks : Locks κ) (group : GroupMode) (out : List (InsertKey κ) × Locks κ × GroupMode) :
    Prop where
  newKeys : out.1 =
    keys.map fun k => if q.grantsKey fd locks k then { k with isWaited := false } else k
  tables : ∀ id, (∀ rid, id ≠ .record fd rid) → out.2.1 id = locks id
  missing : ∀ rid, locks (.record fd rid) = none → out.2.1 (.record fd rid) = none
  records : ∀ rid queueRec, locks (.record fd rid) = some queueRec →
    ∃ l, out.2.1 (.record fd rid) = some { queueRec with requestQueue := l } ∧
      GrantsFor (fun t => ∃ k ∈ keys, q.grantsKey fd locks k = true ∧ k.rid = rid ∧ k.txnId = t)
        queueRec.requestQueue l
  given : ∀ k ∈ keys, q.grantsKey fd locks k = true →
    ∃ queueRec, out.2.1 (.record fd k.rid) = some queueRec ∧
      ∃ r ∈ queueRec.requestQueue, r.txnId = k.txnId ∧ r.holdsX = true
  newGroup : out.2.2 = group ∨ ∃ k ∈ keys, q.grantsKey fd locks k = true ∧
    q.keyInGap k.txnId k.index k.insertKey = true

theorem KeysRegranted.skip {keys : List (InsertKey κ)} {locks : Locks κ} {group : GroupMode}
    {out : List (InsertKey κ) × Locks κ × GroupMode} {k : InsertKey κ}
    (h : KeysRegranted fd q keys locks group out) (hno : q.grantsKey fd locks k = false) :
    KeysRegranted fd q (k :: keys) locks group (k :: out.1, out.2) := by
  refine ⟨by simp [h.newKeys, hno], h.tables, h.missing, ?_, ?_, ?_⟩
  · intro rid queueRec hq
    obtain ⟨l, hl, hg⟩ := h.records rid queueRec hq
    exact ⟨l, hl, hg.mono fun t ⟨k', hk', h⟩ => ⟨k', List.mem_cons_of_mem k hk', h⟩⟩
  · intro k' hk' hgk
    rcases List.mem_cons.mp hk' with rfl | hk'
    · simp [hno] at hgk
    · exact h.given k' hk' hgk
  · rcases h.newGroup with hgroup | ⟨k', hk', h⟩
    · exact Or.inl hgroup
    · exact Or.inr ⟨k', List.mem_cons_of_mem k hk', h⟩

theorem KeysRegranted.grant {keys : List (InsertKey κ)} {locks : Locks κ} {group : GroupMode}
    {out : List (InsertKey κ) × Locks κ × GroupMode} {k : InsertKey κ}
    {queueRec : LockRequestQueue κ} (hqr : locks (.record fd k.rid) = some queueRec)
    (h : KeysRegranted fd q keys
      (locks.set (.record fd k.rid)
        (some (queueRec.update k.txnId fun r => { r with granted := true })))
      (if q.keyInGap k.txnId k.index k.insertKey then .x else group) out)
    (hyes : q.grantsKey fd locks k = true) :
    KeysRegranted fd q (k :: keys) locks group ({ k with isWaited := false } :: out.1, out.2) := by
  obtain ⟨hkeys, htab, hnone, hrec, hgiven, hgroup⟩ := h
  simp only [grantsKey_set_update hqr] at hkeys hrec hgiven hgroup
  refine ⟨by simp [hkeys, hyes], ?_, ?_, ?_, ?_, ?_⟩
  · intro id hid
    rw [htab id hid, Locks.set_other (hid k.rid)]
  · intro rid hn
    have hne : rid ≠ k.rid := by
      rintro rfl
      simp [hqr] at hn
    exact hnone rid (by rw [Locks.set_other (by simpa using hne)]; exact hn)
  · intro rid qr hq
    by_cases hk : rid = k.rid
    · subst hk
      cases Option.some.inj (hqr.symm.trans hq)
      obtain ⟨l, hl, hg⟩ := hrec k.rid _ (Locks.set_self _ _ _)
      refine ⟨l, hl, ?_⟩
      refine GrantsFor.trans (GrantsFor.updateFirst (t := k.txnId) (fun _ h => h)
        ⟨k, List.mem_cons_self, hyes, rfl, rfl⟩) (hg.mono ?_)
      exact fun t ⟨k', hk', h⟩ => ⟨k', List.mem_cons_of_mem k hk', h⟩
    · obtain ⟨l, hl, hg⟩ := hrec rid qr (by
        rw [Locks.set_other (by simpa using hk)]
        exact hq)
      exact ⟨l, hl, hg.mono fun t ⟨k', hk', h⟩ => ⟨k', List.mem_cons_of_mem k hk', h⟩⟩
  · intro k' hk' hgk
    rcases List.mem_cons.mp hk' with rfl | hk'
    · obtain ⟨l, hl, hg⟩ := hrec k'.rid _ (Locks.set_self _ _ _)
      obtain ⟨r, hr, hx⟩ := grantsKey_find hqr hgk
      refine ⟨_, hl, { r with granted := true }, ?_, (LockRequestQueue.find_mem hr).2,
        by simp [LockRequest.holdsX, hx]⟩
      exact hg.mem_granted (mem_updateFirst_find hr) rfl
    · exact hgiven k' hk' hgk
  · rcases hgroup with hgroup | ⟨k', hk', h⟩
    · by_cases hin : q.keyInGap k.txnId k.index k.insertKey = true
      · exact Or.inr ⟨k, List.mem_cons_self, hyes, hin⟩
      · exact Or.inl (by simpa [hin] using hgroup)
    · exact Or.inr ⟨k', List.mem_cons_of_mem k hk', h⟩

theorem regrantKeys_spec {keys : List (InsertKey κ)} {locks : Locks κ} {group : GroupMode}
    {out : List (InsertKey κ) × Locks κ × GroupMode}
    (h : regrantKeys fd q keys locks group = some out) :
    KeysRegranted fd q keys locks group out := by
  induction keys generalizing locks group out with
  | nil =>
    cases Option.some.inj h
    exact ⟨rfl, fun _ _ => rfl, fun _ h => h,
      fun rid queueRec hq => ⟨queueRec.requestQueue, hq, GrantsFor.refl _⟩, by simp, Or.inl rfl⟩
  | cons k rest ih =>
    unfold regrantKeys at h
    split at h
    next hw =>
      obtain ⟨queueRec, hqr, h⟩ := Option.bind_eq_some_iff.mp h
      split at h
      next r hr =>
        split at h
        next hf =>
          obtain ⟨mid, hmid, rfl⟩ := Option.map_eq_some_iff.mp h
          refine (ih hmid).grant hqr ?_
          simp [LockRequestQueue.grantsKey, hf.2, hqr, hr, hf.1]
        next hf =>
          obtain ⟨mid, hmid, rfl⟩ := Option.map_eq_some_iff.mp h
          refine (ih hmid).skip ?_
          by_cases hfr : q.frees k = true
          · have hm : r.lockMode ≠ .exlucsive := fun hm => hf ⟨hm, hfr⟩
            simp [LockRequestQueue.grantsKey, hqr, hr, hm]
          · simp [LockRequestQueue.grantsKey, hfr]
      next hr =>
        obtain ⟨mid, hmid, rfl⟩ := Option.map_eq_some_iff.mp h
        exact (ih hmid).skip (by simp [LockRequestQueue.grantsKey, hqr, hr])
    next hw =>
      obtain ⟨mid, hmid, rfl⟩ := Option.map_eq_some_iff.mp h
      exact (ih hmid).skip (by simp [LockRequestQueue.grantsKey, LockRequestQueue.frees, hw])

end RegrantKeys

end Grmdb
