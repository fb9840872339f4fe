import FLChat.Friends.FriendsList
import FLChat.Friends.Relationships
import FLChat.Realtime.Settling

/-!
# Every accept is completed in the end

A removal wakes observers of values, a request or friendship those of the index, and each of these
reads further down: `rank` orders the callbacks of the sends, of the accepts and of the lists so that
each leads to callbacks of lower ranks only (`descends`). The observers that accepts and lists leave
behind do not keep the system busy, therefore (`friends_settle`). Where nothing fails, an accept ends
with the friendship on both sides, on the open lists of both, and without a request between the two
if every entry of one was written in sight of the observers (`inevitably_completed`).
-/

namespace FLChat.Friends

open Realtime

variable {email : UID → String} {s₀ s t : FState} {f u : UID} {k : String}

/-! ## The callbacks end -/

/-- The write of an index entry ranks 7, above the observers that it may wake. -/
def rank : Kind → Cb → ℕ
  | .acked, .requestSend .. => 8
  | .acked, .recipientFriendAdded .. => 8
  | .acked, .userFriendAdded .. => 10
  | .childAdded, .removeOuter .. => 6
  | .childAdded, .removeInner .. => 4
  | .childAdded, .peerAdded _ => 6
  | .childAdded, .entryAdded _ => 4
  | .value, .recordRead _ => 2
  | _, _ => 0

def ranking : Ranking Cb where
  rank := rank
  child := 6
  value := 2
  rank_childAdded_le cb := by cases cb <;> simp [rank]
  rank_value_le cb := by cases cb <;> simp [rank]

theorem descends : ranking.Descends (program email) := by
  intro c e cb input app cmd hcmd
  have hissues : Issues email (.ran ⟨c, cb, input⟩ e) app c cmd := issues_of_handle hcmd
  cases hissues with
  | recipientIndex => exact (by decide : 7 < 8)
  | recipientFriendIndex => exact (by decide : 9 < 10)
  | outer => exact (by decide : 7 < 8)
  | inner => exact (by decide : 5 < 6)
  | removeRequest | removeIndex | removeSenderIndex => exact (by decide : 3 < 4)
  | peerEntries => exact (by decide : 5 < 6)
  | readRecord => exact (by decide : 3 < 4)
  | readFriend | readRequest => exact (by decide : 1 < 2)

/-- In the end nothing is in flight, whatever happens besides removals that are rejected. -/
theorem friends_settle (s : FState) :
    Inevitably (Works (program email) TakesRemovals) State.Quiescent s :=
  settles_of_takesRemovals descends s

/-! ## Accepting -/

/-- A list of all friends that `u` opened has somebody for each friendship. -/
theorem listed_of_accepted (hemail : Function.Injective email) (hs : Start s₀)
    (h : Reaches (step (program email)) (Loads email) s₀ s) (hq : s.Quiescent)
    (hacc : Accepted s.log f u k) {c : Client} {e : Env}
    (hev : .pressed (.search c .friends "") e ∈ s.log) {v : UID}
    (hsides : c.uid = u ∧ v = f ∨ c.uid = f ∧ v = u) :
    ∃ users ∈ s.app.arrayUsers ⟨c, .friends, "", e.key⟩, users.userId = some v := by
  have hrun := h.mono fun _ _ hl => hl.succeeds
  have hf := facts_of_reaches hs (fun _ _ => Succeeds.proceeds) hrun
  have hentry : Loc.userFriends c.uid k ∈ s.tree := by
    refine friends_of_accepted hs hrun hq hacc (mem_friendshipLocs.2 ?_)
    rcases hsides with ⟨rfl, -⟩ | ⟨rfl, -⟩
    · exact .inr (.inl rfl)
    · exact .inr (.inr rfl)
  obtain ⟨d, v', hd, hne, hsides', hother⟩ := friend_of_entry hs h (hf.origin.tree _ hentry)
  obtain ⟨hfrom, hto⟩ := hf.accepted_unique (hf.accepted_of_lookup hd) hacc
  -- the other user of the record is the other user of the accept
  obtain rfl : v' = v := by
    rcases hsides with ⟨rfl, rfl⟩ | ⟨rfl, rfl⟩ <;> rcases hsides' with ⟨h₁, h₂⟩ | ⟨h₁, h₂⟩
    · exact absurd (h₂.symm.trans hto) hne
    · exact h₁.symm.trans hfrom
    · exact h₂.symm.trans hto
    · exact absurd (h₁.symm.trans hfrom) hne
  have hmem : some (FriendDict.other d c.uid).users ∈
      (s.app.arrayUsers ⟨c, .friends, "", e.key⟩).map some := by
    refine (arrayUsers_perm hs h hemail hq rfl rfl hev rfl).mem_iff.2 (List.mem_map.2 ⟨k, ?_, ?_⟩)
    · exact Tree.mem_children.2 ⟨.userFriends c.uid k, hentry, childKey_userFriends.2 rfl⟩
    · change friendOf s.tree c.uid k = _
      rw [friendOf, hd]
      rfl
  obtain ⟨users, husers, he⟩ := List.mem_map.1 hmem
  exact ⟨users, husers, Option.some.inj he ▸ congrArg some hother.1⟩

/-- The accepts pressed by `s` are completed in `t`: the friendships are there, their users are in
each other's lists, and nothing is pending between two of them between whom every index entry was
written in sight of the observers, in the whole run from `s₀` on. -/
structure AcceptsDone (email : UID → String) (s₀ s t : FState) : Prop where
  quiescent : t.Quiescent
  befriended : ∀ f u k, Accepted s.log f u k → Befriended t f u k
  cleared : ∀ f u k, Accepted s.log f u k →
    Reaches (step (program email)) (Unshadowed f u) s₀ t →
      requestKeys t.tree f u = [] ∧ requestKeys t.tree u f = []
  listed : ∀ f u k, Accepted s.log f u k → ∀ c e, .pressed (.search c .friends "") e ∈ s.log →
    ∀ v, c.uid = u ∧ v = f ∨ c.uid = f ∧ v = u →
      ∃ users ∈ t.app.arrayUsers ⟨c, .friends, "", e.key⟩, users.userId = some v

/-- Where nothing fails, every accept is completed in whatever order the server and the devices go
on. -/
theorem inevitably_completed (hemail : Function.Injective email) (hs : Start s₀)
    (h : Reaches (step (program email)) (Loads email) s₀ s) :
    Inevitably (Works (program email) (Loads email)) (AcceptsDone email s₀ s) s := by
  refine inevitably_of_quiescent descends (fun s l hworks hok => ?_) fun t ht hq => ?_
  · cases l with
    | run | serve => trivial
    | commit => exact hok
    | press | die => cases hworks
  · have ht : Reaches (step (program email)) (Loads email) s t := ht.mono fun _ _ hl => hl.2
    have hlog := (log_suffix ht).subset
    have hrun := h.trans ht
    have hsucceeds := hrun.mono fun _ _ hl => hl.succeeds
    have hacc : ∀ f u k, Accepted s.log f u k → Accepted t.log f u k := by
      rintro f u k ⟨c, hc, peer, e, hev, hk⟩
      exact ⟨c, hc, peer, e, hlog hev, hk⟩
    refine ⟨hq, fun f u k hk l hl => ?_, fun f u k hk _ => ?_, fun f u k hk c e hev v hsides => ?_⟩
    · exact friends_of_accepted hs hsucceeds hq (hacc f u k hk) hl
    · refine requestKeys_eq_nil hs hsucceeds hq (List.ne_nil_of_mem (a := k) ?_)
      exact (friendKeys_perm hs hsucceeds hq f u).mem_iff.2 (mem_acceptKeys.2 (hacc f u k hk))
    · exact listed_of_accepted hemail hs hrun hq (hacc f u k hk) (hlog hev) hsides

/-- Alice has asked Bob, and he has pressed the accept button. -/
theorem accepted_runs :
    (exec (step (program mail)) (Loads mail) start (asking ++ [acceptAlice])).isSome = true := by
  decide +kernel

theorem inevitably_completed_accepted :
    Inevitably (Works (program mail) (Loads mail))
      (AcceptsDone mail start ((exec (step (program mail)) (Loads mail) start
        (asking ++ [acceptAlice])).get accepted_runs))
      ((exec (step (program mail)) (Loads mail) start (asking ++ [acceptAlice])).get
        accepted_runs) :=
  inevitably_completed mail_injective start_start (.of_exec (Option.some_get _).symm)

end FLChat.Friends
