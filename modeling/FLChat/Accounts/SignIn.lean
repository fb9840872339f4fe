import FLChat.Accounts.Home
import FLChat.Realtime.Store

/-!
# What signing in leaves of a profile

The sign-ins by e-mail and with Google only read. The one with Facebook registers the account
again: it uploads the default picture and writes what `User.instance` holds by then over the
profile. So a profile and its picture are what they were exactly when nobody signed in to the
account with Facebook (`unchanged_iff`).
-/

namespace FLChat.Accounts

open Realtime
open FLChat.Messages (Data)

variable {P : Platform} {s₀ s s' t : AState} {l : ALabel} {c : Client} {u : UID} {d d' : Device}
  {cmds : List Command} {p : Press} {cb : Cb} {input : Input Loc}

/-- The profile of `u` and its picture are in `s` what they were in `s₀`. -/
def Unchanged (u : UID) (s₀ s : AState) : Prop :=
  s.tree.lookup (.users u) = s₀.tree.lookup (.users u) ∧
    s.objects (profileImagesPath u) = s₀.objects (profileImagesPath u)

/-- The press registers the account `u`. -/
def Press.registers (u : UID) (p : Press) : Prop :=
  p = .registrateUserAndLogIn u ∨ p = .facebookAuth u

/-! ## Who does not register leaves the profile alone -/

/-- The command does nothing to the profile of `u`, and nor does what follows from it. -/
def LeavesAlone (u : UID) : Command → Prop
  | .write op completion => op.touches (.users u) = false ∧ completion = none
  | .ask a => a.cb.account ≠ some u

theorem leavesAlone_update {uid : UID} {dict : Dict} (h : uid ≠ u) :
    LeavesAlone u (updateUserIntoDatabaseWithUID uid dict) :=
  ⟨decide_eq_false fun he => h (Loc.users.inj he), rfl⟩

theorem leavesAlone_read {k : Response} :
    ∀ cmd ∈ getUserCredentialsFromDatabase k d, LeavesAlone u cmd := by
  intro cmd hcmd
  unfold getUserCredentialsFromDatabase at hcmd
  split at hcmd
  · cases hcmd
  · cases List.mem_singleton.1 hcmd
    intro he
    cases he

theorem Pressed.leavesAlone (h : Pressed P d p d' cmds) (hedits : p.edits = false)
    (hu : ¬ p.registers u) : ∀ cmd ∈ cmds, LeavesAlone u cmd := by
  intro cmd hcmd
  cases h with
  | logIn | load => exact leavesAlone_read cmd hcmd
  | @register p uid hp =>
    unfold registrationUserIntoDB at hcmd
    split at hcmd
    · cases hcmd
    · cases List.mem_singleton.1 hcmd
      intro he
      cases he
      exact hu hp
  | signOut | launch => cases hcmd
  | change hp =>
    rw [hp] at hedits
    cases hedits
  | pick => cases hedits

/-- A callback goes on with its own account. -/
theorem Called.leavesAlone (h : Called P d cb input d' cmds) (hu : cb.account ≠ some u) :
    ∀ cmd ∈ cmds, LeavesAlone u cmd := by
  intro cmd hcmd
  cases h with
  | ignored | credentialsRead => cases hcmd
  | imageStored | newImageStored =>
    cases List.mem_singleton.1 hcmd
    exact hu
  | urlFetched =>
    cases List.mem_singleton.1 hcmd
    exact leavesAlone_update fun he => hu (congrArg some he)
  | newURLFetched =>
    rcases List.mem_cons.1 hcmd with rfl | hcmd
    · exact leavesAlone_update fun he => hu (congrArg some he)
    · exact leavesAlone_read cmd hcmd

theorem profileImagesPath_inj {u v : UID} : profileImagesPath u = profileImagesPath v ↔ u = v := by
  simp [profileImagesPath]

/-- A request of another account leaves the picture alone. -/
theorem store_leavesAlone {user : Option UID} {a : Ask Loc Cb Data} (hi : Issues user (.ask a))
    (hu : a.cb.account ≠ some u) (ok : Bool) (objects : Path → Option (Object Data)) :
    a.store ok objects (profileImagesPath u) = objects (profileImagesPath u) := by
  cases hi with
  | read | url => rfl
  | @upload uid data cb h =>
    cases ok with
    | false => rfl
    | true =>
      refine if_neg fun he => hu ?_
      rw [profileImagesPath_inj] at he
      exact h.trans (congrArg some he.symm)

/-- Nothing under way changes the profile of `u`, and it is what it was. -/
structure Untouched (u : UID) (s₀ s : AState) : Prop where
  unchanged : Unchanged u s₀ s
  writes : ∀ w ∈ s.writes, w.op.touches (.users u) = false
  pending : ∀ c, ∀ cb ∈ s.pending c, cb.account ≠ some u

theorem Untouched.issue (h : Untouched u s₀ s) (hcmds : ∀ cmd ∈ cmds, LeavesAlone u cmd)
    (hwrites : s'.writes = s.writes ++ newWrites c cmds) (htree : s'.tree = s.tree)
    (hobjects : s'.objects = s.objects) (hpending : ∀ c', ∀ cb ∈ s'.pending c',
      cb ∈ s.pending c' ∨ c' = c ∧ some cb ∈ cmds.map Cmd.completion) : Untouched u s₀ s' where
  unchanged := by
    rw [Unchanged, htree, hobjects]
    exact h.unchanged
  writes w hw := by
    rw [hwrites] at hw
    rcases List.mem_append.1 hw with hw | hw
    · exact h.writes w hw
    · exact (hcmds _ (mem_newWrites.1 hw).2).1
  pending c' cb hcb := by
    rcases hpending c' cb hcb with hcb | ⟨-, hcb⟩
    · exact h.pending c' cb hcb
    · obtain ⟨cmd, hcmd, he⟩ := List.mem_map.1 hcb
      have hleaves := hcmds cmd hcmd
      cases cmd with
      | write op completion =>
        rw [show completion = some cb from he] at hleaves
        cases hleaves.2
      | ask a =>
        cases he
        exact hleaves

theorem Untouched.step (h : Untouched u s₀ s) (hplain : Plain s)
    (hl : ∀ a e, l = .press a e → a.press.edits = false ∧ ¬ a.press.registers u)
    (hs : Transition (program P) s l s') : Untouched u s₀ s' := by
  cases hs with
  | @press a e c app cmds hkey hact =>
    obtain ⟨hedits, hregisters⟩ := hl a e rfl
    obtain ⟨d', rfl, happ, hp⟩ := pressed_of_act hact
    exact h.issue (hp.leavesAlone hedits hregisters) rfl rfl rfl fun c' cb => mem_pending_pressed
  | @run i e t app cmds hkey ht hrun =>
    obtain ⟨d', happ, hc⟩ := called_of_handle hrun
    have hu := h.pending _ _ (mem_pending_of_task (List.mem_of_getElem? ht))
    exact h.issue (hc.leavesAlone hu) rfl rfl rfl fun c' cb => mem_pending_ran
  | @apply i w hw hfirst =>
    have hmem := List.mem_of_getElem? hw
    refine ⟨⟨?_, h.unchanged.2⟩, fun w' hw' => h.writes w' (List.mem_of_mem_eraseIdx hw'),
      fun c cb hcb => h.pending c cb (mem_pending_applied hmem hcb)⟩
    rw [State.applied_tree, Op.lookup_apply_of_not_touches (h.writes w hmem)]
    exact h.unchanged.1
  | @reject i w hw hfirst =>
    exact ⟨h.unchanged, fun w' hw' => h.writes w' (List.mem_of_mem_eraseIdx hw'),
      fun c cb hcb => h.pending c cb (mem_pending_rejected (List.mem_of_getElem? hw) hcb)⟩
  | @serve i c a ok ha =>
    have hmem := List.mem_of_getElem? ha
    obtain ⟨user, hi⟩ := hplain.asks _ hmem
    have hu : a.cb.account ≠ some u := h.pending c _ (mem_pending.2 (.inr (.inl ⟨a, hmem, rfl⟩)))
    refine ⟨⟨h.unchanged.1, ?_⟩, h.writes, fun c cb hcb => h.pending c cb (mem_pending_served hmem hcb)⟩
    rw [State.served_objects, store_leavesAlone hi hu]
    exact h.unchanged.2
  | die =>
    exact ⟨h.unchanged, fun w hw => h.writes w (List.mem_filter.1 hw).1,
      fun c cb hcb => h.pending c cb (mem_pending_died hcb).2⟩

/-! ## Who registers replaces the picture -/

/-- A registration requests an upload of the default picture. -/
theorem uploadWaits_of_facebookAuth {a : Action} {e : Env} {app : App}
    (h : (program P).act a e s.app = some (c, app, cmds)) (ha : a.press = .facebookAuth u) :
    UploadWaits (s.pressed a e c app cmds) (profileImagesPath u) := by
  obtain ⟨d', -, -, hp⟩ := pressed_of_act h
  obtain ⟨data, hdata⟩ := Option.isSome_iff_exists.1 P.isSome_defaultImage
  rw [ha] at hp
  cases hp with
  | @register p uid hp =>
    obtain rfl : u = uid := by
      rcases hp with hp | hp
      · cases hp
      · exact Press.facebookAuth.inj hp
    refine ⟨c, data, .imageStored u (P.email u), List.mem_append_right _ (mem_newAsks.2 ⟨rfl, ?_⟩)⟩
    rw [registrationUserIntoDB, hdata]
    exact List.mem_cons_self
  | logIn hp => rcases hp with hp | hp <;> cases hp
  | load hp => rcases hp with hp | hp <;> cases hp
  | change hp => cases hp

/-! ## Rounds of signing in and out -/

/-- The steps of a run in which the account `u` is there already, nobody edits a profile, and
nothing fails. -/
def Sessions (u : UID) (_ : AState) : ALabel → Prop
  | .press a _ => a.press.edits = false ∧ a.press ≠ .registrateUserAndLogIn u
  | l => l.succeeds = true

instance (u : UID) (s : AState) : DecidablePred (Sessions u s)
  | .press a _ => inferInstanceAs (Decidable (a.press.edits = false ∧ _))
  | .run i e => inferInstanceAs (Decidable ((Label.run i e : ALabel).succeeds = true))
  | .commit i ok => inferInstanceAs (Decidable ((Label.commit i ok : ALabel).succeeds = true))
  | .serve i ok => inferInstanceAs (Decidable ((Label.serve i ok : ALabel).succeeds = true))
  | .die c => inferInstanceAs (Decidable ((Label.die c : ALabel).succeeds = true))

theorem Sessions.succeeds (h : Sessions u s l) : l.succeeds = true := by
  cases l with
  | press => rfl
  | run | commit | serve | die => exact h

/-- Somebody signed in to `u` with Facebook. -/
def signsInWithFacebook (u : UID) : AEvent → Bool
  | .pressed a _ => decide (a.press = .facebookAuth u)
  | _ => false

/-- Whoever signed in to `u` with Facebook uploads a picture, or has done so. -/
theorem uploaded_of_reaches (h : Reaches (step (program P)) (Sessions u) s₀ s) :
    generation s₀.objects (profileImagesPath u) ≤ generation s.objects (profileImagesPath u) ∧
      ((∃ ev ∈ since s₀ s, signsInWithFacebook u ev = true) →
        UploadWaits s (profileImagesPath u) ∨
          generation s₀.objects (profileImagesPath u) <
            generation s.objects (profileImagesPath u)) := by
  refine h.invariant_of_reached (I := fun s =>
    generation s₀.objects (profileImagesPath u) ≤ generation s.objects (profileImagesPath u) ∧
      ((∃ ev ∈ since s₀ s, signsInWithFacebook u ev = true) →
        UploadWaits s (profileImagesPath u) ∨
          generation s₀.objects (profileImagesPath u) <
            generation s.objects (profileImagesPath u))) ⟨le_rfl, ?_⟩ fun {t l s'} ht ih hl hstep => ?_
  · rintro ⟨ev, hev, -⟩
    rw [since_self] at hev
    cases hev
  · have hs := transition_of_step hstep
    refine ⟨ih.1.trans (generation_step hs), ?_⟩
    rintro ⟨ev, hev, hfacebook⟩
    obtain ⟨ev', hlog, hsince⟩ := since_step ht hs
    rw [hsince] at hev
    rcases List.mem_cons.1 hev with rfl | hev
    · cases hs with
      | press hkey hact =>
        cases hlog
        exact .inl (uploadWaits_of_facebookAuth hact (of_decide_eq_true hfacebook))
      | run | apply | reject | serve | die =>
        cases hlog
        cases hfacebook
    · exact uploaded_step hs hl.succeeds ih.1 (ih.2 ⟨ev, hev, hfacebook⟩)

theorem untouched_of_reaches (hplain : Plain s₀) (hq : s₀.Quiescent)
    (h : Reaches (step (program P)) (Sessions u) s₀ s)
    (hno : ∀ ev ∈ since s₀ s, signsInWithFacebook u ev = false) : Untouched u s₀ s := by
  have hrun : Plain s ∧
      ((∀ ev ∈ since s₀ s, signsInWithFacebook u ev = false) → Untouched u s₀ s) := by
    refine h.invariant_of_reached (I := fun s => Plain s ∧
      ((∀ ev ∈ since s₀ s, signsInWithFacebook u ev = false) → Untouched u s₀ s)) ⟨hplain, fun _ => ?_⟩
      fun {t l s'} ht ih hl hstep => ?_
    · refine ⟨⟨rfl, rfl⟩, fun w hw => by simp [hq.writes] at hw, fun c cb hcb => ?_⟩
      simp [State.pending, hq.writes, hq.asks, hq.tasks, hplain.childObs, hplain.valueObs] at hcb
    · have hs := transition_of_step hstep
      refine ⟨ih.1.step hs, fun hno => ?_⟩
      obtain ⟨ev, hlog, hsince⟩ := since_step ht hs
      rw [hsince] at hno
      refine (ih.2 fun ev hev => hno ev (List.mem_cons_of_mem _ hev)).step ih.1 ?_ hs
      rintro a e rfl
      refine ⟨hl.1, fun hp => ?_⟩
      rcases hp with hp | hp
      · exact hl.2 hp
      · cases hs with
        | press hkey hact =>
          cases hlog
          exact of_decide_eq_false (hno _ List.mem_cons_self) hp
  exact hrun.2 hno

/-- When every sign-in has run to completion, a profile and its picture are what they were, exactly
if nobody signed in to the account with Facebook. -/
theorem unchanged_iff (hs : Start s) (h₀ : Reaches (step (program P)) (fun _ _ => True) s s₀)
    (hq₀ : s₀.Quiescent) (h : Reaches (step (program P)) (Sessions u) s₀ t) (hq : t.Quiescent) :
    Unchanged u s₀ t ↔ ∀ ev ∈ since s₀ t, signsInWithFacebook u ev = false := by
  constructor
  · intro hsame ev hev
    by_contra hfacebook
    rw [Bool.not_eq_false] at hfacebook
    rcases (uploaded_of_reaches h).2 ⟨ev, hev, hfacebook⟩ with ⟨c', data, cb, hask⟩ | hlt
    · rw [hq.asks] at hask
      cases hask
    · have hsame : generation t.objects (profileImagesPath u) =
          generation s₀.objects (profileImagesPath u) := by
        rw [generation, hsame.2, generation]
      omega
  · intro hno
    exact (untouched_of_reaches (.of_reaches hs.initial h₀) hq₀ h hno).unchanged

/-- Alice has a profile and a picture. -/
def known : AState :=
  { start with
    tree := (∅ : Realtime.Tree Loc).update (.users "alice")
      (userData "alice@mail" "555" "Alice" "profile_images/alice" true false false)
    objects := fun p => if p = profileImagesPath "alice" then some ⟨0, "portrait"⟩ else none }

theorem known_start : Start known := ⟨⟨rfl, rfl, rfl, rfl, rfl, rfl⟩, fun _ => rfl⟩

/-- Alice signs in with Google, signs out, and signs in by e-mail. -/
def rounds : List ALabel := [
  .press ⟨0, .didSignInFor "alice"⟩ ⟨"a", 0⟩, .serve 0 true, .run 0 ⟨"b", 1⟩,
  .press ⟨0, .homeDidAppear⟩ ⟨"c", 2⟩, .serve 0 true, .run 0 ⟨"d", 3⟩,
  .press ⟨0, .signOutPressed⟩ ⟨"e", 4⟩, .press ⟨0, .loginBtnPressed "alice"⟩ ⟨"f", 5⟩,
  .serve 0 true, .run 0 ⟨"g", 6⟩]

theorem rounds_run : (exec (step (program sdk)) (Sessions "alice") known rounds).isSome = true := by
  decide +kernel

def afterRounds : AState := (exec (step (program sdk)) (Sessions "alice") known rounds).get rounds_run

theorem unchanged_afterRounds : Unchanged "alice" known afterRounds :=
  (unchanged_iff known_start .refl ⟨rfl, rfl, rfl⟩
    (.of_exec (Option.some_get _).symm) ⟨rfl, rfl, rfl⟩).2 (by decide +kernel)

/-! ## With Facebook -/

/-- Signing in never destroys a profile. -/
def SignInKeepsProfiles (P : Platform) : Prop :=
  ∀ s s₀ t u, Start s → Reaches (step (program P)) (fun _ _ => True) s s₀ → s₀.Quiescent →
    Complete (s₀.tree.lookup (.users u)) → Reaches (step (program P)) (Sessions u) s₀ t →
      t.Quiescent → Unchanged u s₀ t

/-- Alice signs in with Facebook. -/
def facebook : List ALabel := [
  .press ⟨0, .facebookAuth "alice"⟩ ⟨"a", 0⟩, .serve 0 true, .run 0 ⟨"b", 1⟩, .serve 0 true,
  .run 0 ⟨"c", 2⟩, .commit 0 true]

theorem facebook_runs : (exec (step (program sdk)) (Sessions "alice") known facebook).isSome = true := by
  decide +kernel

def afterFacebook : AState :=
  (exec (step (program sdk)) (Sessions "alice") known facebook).get facebook_runs

/-- Alice's name is the placeholder again. -/
theorem not_signInKeepsProfiles : ¬ SignInKeepsProfiles sdk := by
  intro h
  have hsame := (h known known afterFacebook "alice" known_start .refl ⟨rfl, rfl, rfl⟩
    (by decide +kernel) (.of_exec (Option.some_get _).symm) ⟨rfl, rfl, rfl⟩).1
  have hname : stringAt (afterFacebook.tree.lookup (.users "alice")) .name = some "User name" := by
    decide +kernel
  rw [hsame] at hname
  revert hname
  decide +kernel

end FLChat.Accounts
