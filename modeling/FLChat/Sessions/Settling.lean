import FLChat.Friends.Settling
import FLChat.Sessions.Issued

/-!
# The process comes to rest

Accounts and friends share one process and one database, and the observers of the lists live on
through sign-outs. The chains of the friends keep their ranks (`Friends.rank`), and those of the
accounts end with a write, which may wake any of the observers. So the process comes to rest
from every state, whoever signs in or out, whatever traps on the way and whatever the server rejects
except removals (`sessions_settle`).
-/

namespace FLChat.Sessions

open Realtime
open FLChat.Accounts (UID)

variable {P : Platform} {app : App} {c : Client} {uid : UID} {cmd : Command}

def rank : Kind → Cb → ℕ
  | .stored, .account _ => 10
  | .url, .account _ => 8
  | kind, .friend _ cb => Friends.rank kind cb
  | _, _ => 0

theorem rank_friend (kind : Kind) (cb : Friends.Cb) :
    rank kind (.friend uid cb) = Friends.rank kind cb := by
  cases kind <;> rfl

def ranking : Ranking Cb where
  rank := rank
  child := Friends.ranking.child
  value := Friends.ranking.value
  rank_childAdded_le
    | .friend _ cb => Friends.ranking.rank_childAdded_le cb
    | .account _ | .profileRead .. | .usersRead _ => Nat.zero_le _
  rank_value_le
    | .friend _ cb => Friends.ranking.rank_value_le cb
    | .account _ | .profileRead .. | .usersRead _ => Nat.zero_le _

/-- The commands of the friends keep their ranks. -/
theorem cmd_friendCommand {cmd' : Friends.Command} (h : friendCommand uid cmd' = some cmd) :
    ranking.cmd cmd = Friends.ranking.cmd cmd' := by
  unfold friendCommand at h
  split at h <;> cases h
  · next completion => cases completion <;> rfl
  · next completion => cases completion <;> rfl
  · rfl
  · rfl
  · rfl

theorem cmd_friendCommands {n : ℕ} {app' : App} {cmds : List Friends.Command}
    (hcmds : ∀ cmd' ∈ cmds, Friends.ranking.cmd cmd' < n)
    (h : cmd ∈ (app', friendCommands uid cmds).2) : ranking.cmd cmd < n := by
  obtain ⟨cmd', hcmd', he⟩ := List.mem_filterMap.1 h
  rw [cmd_friendCommand he]
  exact hcmds cmd' hcmd'

theorem cmd_friendCommand_singleton {n : ℕ} {app' : App} {cmd' : Friends.Command}
    (h : cmd ∈ (app', friendCommands uid [cmd']).2) (hcmd : Friends.ranking.cmd cmd' < n) :
    ranking.cmd cmd < n :=
  cmd_friendCommands (fun _ hcmd' => List.mem_singleton.1 hcmd' ▸ hcmd) h

/-- A command of the accounts after the upload is a write without a completion or a read. -/
theorem cmd_accountCallback {cb : Accounts.Cb} {input : Input Accounts.Loc}
    (h : cmd ∈ (accountCallback P c cb input app).2) :
    (∃ b, input = .stored b) ∧ ranking.cmd cmd = 9 ∨ (∃ u, input = .url u) ∧ ranking.cmd cmd < 8 := by
  change cmd ∈ (Accounts.callback P.toPlatform cb input (app.device c)).2.map accountCommand at h
  obtain ⟨cmd', hcmd', rfl⟩ := List.mem_map.1 h
  obtain ⟨d', cmds, hcall⟩ : ∃ d' cmds,
      Accounts.callback P.toPlatform cb input (app.device c) = (d', cmds) := ⟨_, _, rfl⟩
  rw [hcall] at hcmd'
  cases Accounts.called_of_callback hcall with
  | ignored | credentialsRead => cases hcmd'
  | imageStored | newImageStored =>
    obtain rfl := List.mem_singleton.1 hcmd'
    exact .inl ⟨⟨_, rfl⟩, rfl⟩
  | urlFetched =>
    obtain rfl := List.mem_singleton.1 hcmd'
    exact .inr ⟨⟨_, rfl⟩, (by decide : 7 < 8)⟩
  | newURLFetched =>
    refine .inr ⟨⟨_, rfl⟩, ?_⟩
    rcases List.mem_cons.1 hcmd' with rfl | hread
    · exact (by decide : 7 < 8)
    · unfold Accounts.setUserSettings Accounts.getUserCredentialsFromDatabase at hread
      split at hread
      · cases hread
      · obtain rfl := List.mem_singleton.1 hread
        exact (by decide : 1 < 8)

theorem cmd_friendCallback {cb : Friends.Cb} {input : Input Loc}
    (h : cmd ∈ (friendCallback P c uid cb input app).2) :
    ranking.cmd cmd < Friends.rank input.kind cb := by
  unfold friendCallback at h
  split at h
  · split at h
    · cases h
    · refine cmd_friendCommand_singleton h ?_
      exact (by decide : 7 < 8)
  · refine cmd_friendCommand_singleton h ?_
    exact (by decide : 9 < 10)
  · refine cmd_friendCommand_singleton h ?_
    exact (by decide : 7 < 8)
  · refine cmd_friendCommand_singleton h ?_
    exact (by decide : 5 < 6)
  · refine cmd_friendCommands (fun cmd' hcmd' => ?_) h
    simp only [Friends.removeInner, List.mem_cons, List.not_mem_nil, or_false] at hcmd'
    rcases hcmd' with rfl | rfl | rfl <;> exact (by decide : 3 < 4)
  · refine cmd_friendCommand_singleton h ?_
    exact (by decide : 5 < 6)
  · refine cmd_friendCommand_singleton h ?_
    exact (by decide : 3 < 4)
  · refine cmd_friendCommands (fun cmd' hcmd' => ?_) h
    obtain ⟨side, -, rfl⟩ := List.mem_map.1 hcmd'
    exact (by decide : 1 < 2)
  · refine cmd_friendCommands (fun cmd' hcmd' => ?_) h
    obtain ⟨side, -, rfl⟩ := List.mem_map.1 hcmd'
    exact (by decide : 1 < 2)
  · cases h
  · cases h
  · cases h

theorem descends : ranking.Descends (program P) := by
  intro c e cb input app cmd hcmd
  rw [program_handle] at hcmd
  unfold callback at hcmd
  split at hcmd
  · cases hcmd
  split at hcmd
  · rcases cmd_accountCallback hcmd with ⟨-, h⟩ | ⟨⟨_, h⟩, -⟩
    · exact (by rw [h]; decide : ranking.cmd cmd < 10)
    · cases h
  · rcases cmd_accountCallback hcmd with ⟨⟨_, h⟩, -⟩ | ⟨-, h⟩
    · cases h
    · exact h
  · rcases cmd_accountCallback hcmd with ⟨⟨_, h⟩, -⟩ | ⟨⟨_, h⟩, -⟩ <;> cases h
  · cases hcmd
  · exact (cmd_friendCallback hcmd).trans_eq (rank_friend _ _).symm
  · cases hcmd

/-- In the end nothing is in flight, whatever happens besides removals that are rejected. -/
theorem sessions_settle (s : SState) :
    Inevitably (Works (program P) TakesRemovals) State.Quiescent s :=
  settles_of_takesRemovals descends s

end FLChat.Sessions
