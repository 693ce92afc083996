import RaftKv.Table

/-! The log of a node in a run of any sections: entry `i` keeps index `i`, and the log stays within
its array. -/

namespace RaftKv

open Stdio

variable {x y : RaftNode} {env : Env} {sec : Section} {e : Effect}

/-- The handlers of membership lines keep the log and the commit index. -/
theorem membership_log {id port : ℕ} {host : Text} {r : ℤ}
    (h : Admission x id host port r y ∨ Removal x id r y) :
    y.log = x.log ∧ y.commitIndex = x.commitIndex := by
  rcases h with hadd | hremove
  · cases hadd <;> exact ⟨rfl, rfl⟩
  · cases hremove <;> exact ⟨rfl, rfl⟩

/-- What a section does to the log, and where it commits. -/
theorem exec_log (he : exec env sec x = some e) : LogTurn x sec e.node.log ∧
    (e.node.commitIndex = x.commitIndex ∨ e.node.commitIndex ≤ e.node.logCount) := by
  by_cases hsec : sec.changesTable = true
  · have kept : e.node.log = x.log ∧ e.node.commitIndex = x.commitIndex →
        LogTurn x sec e.node.log ∧
        (e.node.commitIndex = x.commitIndex ∨ e.node.commitIndex ≤ e.node.logCount) := by
      rintro ⟨hlog, hcommit⟩
      rw [hlog]
      exact ⟨.keep sec, Or.inl hcommit⟩
    cases sec with
    | handleJoin id host port | handlePeerAnnounce id host port =>
      obtain rfl := Option.some.inj he
      exact kept (membership_log (Or.inl (admission x id host port)))
    | handleLeave id =>
      obtain rfl := Option.some.inj he
      exact kept (@membership_log _ _ id 0 [] _ (Or.inr (removal x id)))
    | _ => cases hsec
  · obtain ⟨log, c, hbody, hturn, hc⟩ := exec_body he (Bool.not_eq_true _ ▸ hsec)
    obtain ⟨-, hrest⟩ := Prod.mk.inj hbody
    obtain ⟨rfl, rfl⟩ := Prod.mk.inj hrest
    exact ⟨hturn, hc⟩

/-- The outcomes of storing an entry: the log is kept, or cut to the position before the entry and
extended by it. -/
theorem storeEntry_shape {log log' : List RaftLogEntry} {d : RaftLogEntry}
    (h : storeEntry log d = some log') (room : log.length ≤ raftMaxLog) :
    log' = log ∨ ∃ prev, d.index = prev + 1 ∧ prev ≤ log.length ∧ prev < raftMaxLog ∧
      log' = log.take prev ++ [d] := by
  obtain ⟨prev, hindex⟩ : ∃ prev, d.index = prev + 1 :=
    Nat.exists_eq_succ_of_ne_zero (storeEntry_isSome.mp (Option.isSome_of_eq_some h))
  rcases Nat.lt_or_ge log.length prev with hfar | hreach
  · exact Or.inl (storeEntry_beyond h (by omega) (by omega))
  · rcases Nat.lt_or_ge prev raftMaxLog with hlt | hfull
    · rcases storeEntry_cases h hindex hreach hlt with ⟨_, _, _, hkept⟩ | ⟨-, hcut⟩
      · exact Or.inl hkept
      · exact Or.inr ⟨prev, hindex, hreach, hlt, hcut⟩
    · have hlength : log.length = prev := by omega
      exact Or.inl (storeEntry_full h (hlength ▸ hindex) (hlength ▸ hfull))

theorem storeEntry_length {log log' : List RaftLogEntry} {d : RaftLogEntry}
    (h : storeEntry log d = some log') (room : log.length ≤ raftMaxLog) :
    log'.length ≤ raftMaxLog := by
  rcases storeEntry_shape h room with rfl | ⟨k, -, hreach, hlt, rfl⟩
  · exact room
  · rw [List.length_append, List.length_take, Nat.min_eq_left hreach]
    exact hlt

/-- The log is within its array, and entry `i` has index `i`. -/
structure LogOk (log : List RaftLogEntry) : Prop where
  room : log.length ≤ raftMaxLog
  indexed : Indexed log

theorem LogOk.turn (h : LogOk x.log) {log : List RaftLogEntry} (turn : LogTurn x sec log) :
    LogOk log := by
  cases turn with
  | keep => exact h
  | append submits lead room =>
    refine ⟨?_, h.indexed.concat rfl⟩
    rw [List.length_append]
    exact room
  | store term prev entry stored =>
    rcases storeEntry_shape stored h.room with rfl | ⟨k, hindex, hreach, hlt, rfl⟩
    · exact h
    · have hlength : (x.log.take k).length = k := by
        rw [List.length_take, Nat.min_eq_left hreach]
      exact ⟨storeEntry_length stored h.room,
        (h.indexed.take k).concat (by rw [hlength, hindex])⟩

theorem LogOk.exec (h : LogOk x.log) (he : exec env sec x = some e) : LogOk e.node.log :=
  h.turn (exec_log he).1

end RaftKv
