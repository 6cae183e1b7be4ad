import Grmdb.ClientHandler
import Grmdb.LogOutcome

namespace Grmdb

open AssocMap

namespace HandlerState

/-- Clients never share a transaction, and a statement runs in a live one. -/
structure Inv (s : HandlerState) : Prop where
  ended : s.server.Ended
  unused : ∀ t, s.server.stateOf t = none ↔ s.server.nextTxnId ≤ t
  held : ∀ c t, (s.clients c).txnId = some t → t < s.server.nextTxnId
  apart : ∀ c c' t, (s.clients c).txnId = some t → (s.clients c').txnId = some t → c = c'
  context : ∀ c t, (s.clients c).pc = .executing t ∨ (s.clients c).pc = .replying t →
    (s.clients c).txnId = some t
  live : ∀ c t, (s.clients c).pc = .executing t → s.server.stateOf t = some .growing

theorem inv_fresh (persist : Lsn) : Inv (fresh persist) := by
  refine ⟨?_, ?_, ?_, ?_, ?_, ?_⟩
  · intro t r hr
    simp [fresh, Server.fresh, LogManager.fresh, LogManager.records] at hr
  all_goals simp [fresh, Server.fresh, Server.stateOf]

theorem put_clients_self (s : HandlerState) (c : ClientId) (server : Server) (h : Handler) :
    (s.put c server h).clients c = h := by
  simp [put]

theorem put_clients_other {s : HandlerState} {c d : ClientId} (hd : d ≠ c) (server : Server)
    (h : Handler) : (s.put c server h).clients d = s.clients d := by
  simp [put, hd]

/-- A client that acts on its own transaction keeps the invariant when the log does. -/
theorem Inv.put {s : HandlerState} (hi : s.Inv) {c : ClientId} {t : TxnId} {server : Server}
    {pc : HandlerPc} (hc : (s.clients c).txnId = some t) (hended : server.Ended)
    (hnext : server.nextTxnId = s.server.nextTxnId)
    (hsome : server.stateOf t = none ↔ s.server.stateOf t = none)
    (hst : ∀ u, u ≠ t → server.stateOf u = s.server.stateOf u)
    (hpc : ∀ u, pc = .executing u ∨ pc = .replying u → u = t)
    (hlive : pc = .executing t → server.stateOf t = some .growing) :
    Inv (s.put c server ⟨some t, pc⟩) := by
  have hids : ∀ d, ((s.put c server ⟨some t, pc⟩).clients d).txnId = (s.clients d).txnId := by
    intro d
    by_cases hd : d = c
    · subst hd
      rw [put_clients_self, hc]
    · rw [put_clients_other hd]
  refine ⟨hended, ?_, ?_, ?_, ?_, ?_⟩
  · intro u
    show server.stateOf u = none ↔ server.nextTxnId ≤ u
    rw [hnext, ← hi.unused u]
    by_cases hu : u = t
    · rw [hu, hsome]
    · rw [hst u hu]
  · intro d u hu
    rw [hids] at hu
    exact hnext ▸ hi.held d u hu
  · intro d d' u hd hd'
    rw [hids] at hd hd'
    exact hi.apart d d' u hd hd'
  · intro d u hu
    rw [hids]
    by_cases hd : d = c
    · subst hd
      rw [put_clients_self] at hu
      rw [hc, hpc u hu]
    · rw [put_clients_other hd] at hu
      exact hi.context d u hu
  · intro d u hu
    by_cases hd : d = c
    · subst hd
      rw [put_clients_self] at hu
      have hut := hpc u (Or.inl hu)
      subst hut
      exact hlive hu
    · rw [put_clients_other hd] at hu
      have hut : u ≠ t := by
        rintro rfl
        exact hd (hi.apart d c u (hi.context d u (Or.inl hu)) hc)
      show server.stateOf u = some .growing
      rw [hst u hut]
      exact hi.live d u hu

/-- The handler leaves the loop. -/
theorem Inv.close {s : HandlerState} (hi : s.Inv) {c : ClientId} {txnId : Option TxnId}
    (hc : (s.clients c).txnId = txnId) : Inv (s.put c s.server ⟨txnId, .closed⟩) := by
  have hids : ∀ d, ((s.put c s.server ⟨txnId, .closed⟩).clients d).txnId =
      (s.clients d).txnId := by
    intro d
    by_cases hd : d = c
    · subst hd
      rw [put_clients_self, hc]
    · rw [put_clients_other hd]
  have hpcs : ∀ d, ((s.put c s.server ⟨txnId, .closed⟩).clients d).pc ≠ .closed →
      ((s.put c s.server ⟨txnId, .closed⟩).clients d).pc = (s.clients d).pc := by
    intro d hd
    by_cases hdc : d = c
    · subst hdc
      simp [put_clients_self] at hd
    · rw [put_clients_other hdc]
  refine ⟨hi.ended, hi.unused, ?_, ?_, ?_, ?_⟩
  · intro d u hu
    exact hi.held d u (hids d ▸ hu)
  · intro d d' u hd hd'
    exact hi.apart d d' u (hids d ▸ hd) (hids d' ▸ hd')
  · intro d u hu
    rw [hids]
    rw [hpcs d (by rcases hu with hu | hu <;> simp [hu])] at hu
    exact hi.context d u hu
  · intro d u hu
    rw [hpcs d (by simp [hu])] at hu
    exact hi.live d u hu

theorem Inv.newTxn {s : HandlerState} (hi : s.Inv) (c : ClientId) :
    Inv (s.put c (s.server.begin.setTxnMode s.server.nextTxnId false)
      ⟨some s.server.nextTxnId, .executing s.server.nextTxnId⟩) := by
  set t := s.server.nextTxnId
  have hnew : s.server.stateOf t = none := (hi.unused t).mpr le_rfl
  have hst : ∀ u, (s.server.begin.setTxnMode t false).stateOf u =
      if u = t then some .growing else s.server.stateOf u := by
    intro u
    rw [Server.setTxnMode_stateOf, Server.begin_stateOf]
  have hold : ∀ d u, d ≠ c → ((s.put c (s.server.begin.setTxnMode t false)
      ⟨some t, .executing t⟩).clients d).txnId = some u → u < t := by
    intro d u hd hu
    rw [put_clients_other hd] at hu
    exact hi.held d u hu
  refine ⟨?_, ?_, ?_, ?_, ?_, ?_⟩
  · intro u
    show EndedAs (s.server.begin.setTxnMode t false).log.records u
      ((s.server.begin.setTxnMode t false).stateOf u)
    rw [Server.setTxnMode_stateOf]
    exact hi.ended.begin hnew u
  · intro u
    show (s.server.begin.setTxnMode t false).stateOf u = none ↔ t + 1 ≤ u
    rw [hst]
    by_cases hu : u = t
    · simp [hu]
    · rw [if_neg hu, hi.unused u]
      exact ⟨fun h => Nat.lt_of_le_of_ne h (Ne.symm hu), Nat.le_of_succ_le⟩
  · intro d u hu
    show u < t + 1
    by_cases hd : d = c
    · subst hd
      rw [put_clients_self] at hu
      simp_all
    · exact Nat.lt_succ_of_lt (hold d u hd hu)
  · intro d d' u hd hd'
    by_cases hdc : d = c
    · by_cases hdc' : d' = c
      · rw [hdc, hdc']
      · have hlt := hold d' u hdc' hd'
        rw [hdc, put_clients_self] at hd
        exact absurd (Option.some.inj hd) (Nat.ne_of_gt hlt)
    · have hlt := hold d u hdc hd
      by_cases hdc' : d' = c
      · rw [hdc', put_clients_self] at hd'
        exact absurd (Option.some.inj hd') (Nat.ne_of_gt hlt)
      · rw [put_clients_other hdc] at hd
        rw [put_clients_other hdc'] at hd'
        exact hi.apart d d' u hd hd'
  · intro d u hu
    by_cases hd : d = c
    · subst hd
      rw [put_clients_self] at hu ⊢
      simpa using hu
    · rw [put_clients_other hd] at hu ⊢
      exact hi.context d u hu
  · intro d u hu
    show (s.server.begin.setTxnMode t false).stateOf u = some .growing
    rw [hst]
    by_cases hd : d = c
    · subst hd
      rw [put_clients_self] at hu
      simp_all
    · rw [put_clients_other hd] at hu
      have hlt := hi.held d u (hi.context d u (Or.inl hu))
      rw [if_neg (Nat.ne_of_lt hlt)]
      exact hi.live d u hu

/-- The transaction `SetTransaction` keeps is a live one. -/
theorem Inv.request {s : HandlerState} (hi : s.Inv) {c : ClientId} {txnId : Option TxnId}
    (hc : (s.clients c).txnId = txnId) :
    Inv (s.put c (s.server.setTransaction txnId).1
      ⟨some (s.server.setTransaction txnId).2, .executing (s.server.setTransaction txnId).2⟩) := by
  unfold Server.setTransaction
  match txnId with
  | none => exact hi.newTxn c
  | some t =>
    dsimp only
    split
    next => exact hi.newTxn c
    next hopen =>
      rw [not_or] at hopen
      have hlive : s.server.stateOf t = some .growing := by
        have hended := hi.ended t
        have hlt := hi.held c t hc
        cases hst : s.server.stateOf t with
        | none => exact absurd ((hi.unused t).mp hst) (Nat.not_le.mpr hlt)
        | some st =>
          rw [hst] at hended hopen
          cases st with
          | growing => rfl
          | committed => simp at hopen
          | aborted => simp at hopen
          | default => exact hended.elim
          | shrinking => exact hended.elim
      exact hi.put hc hi.ended rfl Iff.rfl (fun _ _ => rfl) (by simp) (fun _ => hlive)

theorem autoCommit_of_implicit {s : Server} {t : TxnId} (h : s.txnModeOf t = some false) :
    s.autoCommit t = s.commit t := if_pos h

theorem autoCommit_of_explicit {s : Server} {t : TxnId} (h : s.txnModeOf t ≠ some false) :
    s.autoCommit t = s := if_neg h

/-- A handler action that does not auto-commit an aborted transaction. -/
theorem inv_step {s s' : HandlerState} {e : HandlerEv} (hi : Inv s) (hg : s.RepliesToLive e)
    (h : s.step e = some s') : Inv s' := by
  cases e with
  | request c =>
    simp only [step] at h
    split at h
    next txnId hc =>
      cases Option.some.inj h
      exact hi.request (by rw [hc])
    next => simp at h
  | write c body =>
    simp only [step] at h
    split at h
    next txnId t hc =>
      split at h
      next hd =>
        cases Option.some.inj h
        have hid := hi.context c t (by simp [hc])
        have hlive := hi.live c t (by simp [hc])
        obtain rfl : txnId = some t := by simpa [hc] using hid
        refine hi.put hid (hi.ended.logRecord hlive hd) rfl (by simp) (by simp) (by simp) ?_
        simpa using hlive
      next => simp at h
    next => simp at h
  | beginStmt c =>
    simp only [step] at h
    split at h
    next txnId t hc =>
      cases Option.some.inj h
      have hid := hi.context c t (by simp [hc])
      obtain rfl : txnId = some t := by simpa [hc] using hid
      refine hi.put hid ?_ rfl (by simp) (by simp) (by simp) (by simp)
      intro u
      rw [Server.setTxnMode_stateOf]
      exact hi.ended u
    next => simp at h
  | commitStmt c =>
    simp only [step] at h
    split at h
    next t u hc =>
      cases Option.some.inj h
      obtain rfl : t = u := by simpa [hc] using hi.context c u (by simp [hc])
      have hlive := hi.live c t (by simp [hc])
      refine hi.put (by simp [hc]) (hi.ended.commit (Or.inl hlive)) rfl ?_ ?_ (by simp) (by simp)
      · simp [Server.stateOf_commit]
      · intro v hv
        simp [Server.stateOf_commit, hv]
    next => simp at h
  | abortStmt c =>
    simp only [step] at h
    split at h
    next t u hc =>
      cases Option.some.inj h
      obtain rfl : t = u := by simpa [hc] using hi.context c u (by simp [hc])
      have hlive := hi.live c t (by simp [hc])
      refine hi.put (by simp [hc]) (hi.ended.abort hlive) rfl ?_ ?_ (by simp) (by simp)
      · simp [Server.stateOf_abort]
      · intro v hv
        simp [Server.stateOf_abort, hv]
    next => simp at h
  | checkpointStmt c =>
    simp only [step] at h
    split at h
    next txnId t hc =>
      cases Option.some.inj h
      have hid := hi.context c t (by simp [hc])
      obtain rfl : txnId = some t := by simpa [hc] using hid
      exact hi.put hid hi.ended.checkpoint rfl Iff.rfl (fun _ _ => rfl) (by simp) (by simp)
    next => simp at h
  | throwAbort c =>
    simp only [step] at h
    split at h
    next txnId t hc =>
      cases Option.some.inj h
      have hid := hi.context c t (by simp [hc])
      have hlive := hi.live c t (by simp [hc])
      obtain rfl : txnId = some t := by simpa [hc] using hid
      refine hi.put hid (Server.throwAbort_ended hi.ended hlive) rfl ?_ ?_ (by simp) (by simp)
      · simp [Server.stateOf_abort, Server.setState_stateOf]
      · intro v hv
        simp [Server.stateOf_abort, Server.setState_stateOf, hv]
    next => simp at h
  | done c =>
    simp only [step] at h
    split at h
    next txnId t hc =>
      cases Option.some.inj h
      have hid := hi.context c t (by simp [hc])
      obtain rfl : txnId = some t := by simpa [hc] using hid
      exact hi.put hid hi.ended rfl Iff.rfl (fun _ _ => rfl) (by simp) (by simp)
    next => simp at h
  | reply c ok =>
    simp only [step] at h
    split at h
    next txnId t hc =>
      have hid := hi.context c t (by simp [hc])
      obtain rfl : txnId = some t := by simpa [hc] using hid
      split at h
      next hok =>
        cases Option.some.inj h
        subst hok
        have hreply : s.server.stateOf t = some .aborted → s.server.txnModeOf t = some true := by
          simpa [RepliesToLive, hc] using hg
        by_cases hm : s.server.txnModeOf t = some false
        · rw [autoCommit_of_implicit hm]
          have hlive : s.server.stateOf t = some .growing ∨
              s.server.stateOf t = some .committed := by
            have hended := hi.ended t
            have hlt := hi.held c t hid
            cases hst : s.server.stateOf t with
            | none => exact absurd ((hi.unused t).mp hst) (Nat.not_le.mpr hlt)
            | some st =>
              rw [hst] at hended
              cases st with
              | growing => exact Or.inl rfl
              | committed => exact Or.inr rfl
              | aborted => simp [hreply hst] at hm
              | default => exact hended.elim
              | shrinking => exact hended.elim
          refine hi.put hid (hi.ended.commit hlive) rfl ?_ ?_ (by simp) (by simp)
          · simp [Server.stateOf_commit]
          · intro v hv
            simp [Server.stateOf_commit, hv]
        · rw [autoCommit_of_explicit hm]
          exact hi.put hid hi.ended rfl Iff.rfl (fun _ _ => rfl) (by simp) (by simp)
      next =>
        cases Option.some.inj h
        exact hi.put hid hi.ended rfl Iff.rfl (fun _ _ => rfl) (by simp) (by simp)
    next => simp at h
  | disconnect c =>
    simp only [step] at h
    split at h
    next txnId hc =>
      cases Option.some.inj h
      exact hi.close (by rw [hc])
    next => simp at h

end HandlerState

end Grmdb
