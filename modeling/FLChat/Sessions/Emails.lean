import FLChat.Friends.Directions
import FLChat.Realtime.Pending
import FLChat.Sessions.Snapshots

/-!
# The e-mails of the profiles

A registration carries the e-mail that `Auth` has through the upload of the default picture into
the profile (`registers_of_reaches`), and no change of a profile touches that field
(`emails_of_reaches`). So whoever is found in the search has the e-mail of its account, and so has
the singleton once it is loaded (`knowsEmails_of_reaches`). With this a device meets
`Friends.Searching` whenever it sends, and both users of every request have the e-mails of their
accounts (`genuine_of_reaches`): the lists of requests tell the directions apart by nothing else.
-/

namespace FLChat.Sessions

open Realtime
open FLChat.Accounts (UID Dict Device stringAt)
open FLChat.Friends (Users UserParams RequestDict)

variable {P : Platform} {s₀ s s' : SState} {l : SLabel} {c : Client} {uid : UID} {op : Op Loc}
  {app : App} {ok : SState → SLabel → Prop}

/-! ## Registrations -/

/-- A registration goes on with the e-mail of its account. -/
def Registers (P : Accounts.Platform) : Accounts.Cb → Prop
  | .imageStored uid email | .urlFetched uid email => email = P.email uid
  | .credentialsRead _ | .newImageStored _ | .newURLFetched _ => True

theorem registers_getUserCredentialsFromDatabase {P : Accounts.Platform} {k : Accounts.Response}
    {d : Device} :
    ∀ cmd ∈ Accounts.getUserCredentialsFromDatabase k d, ∀ cb ∈ cmd.completion, Registers P cb := by
  intro cmd hcmd cb hcb
  unfold Accounts.getUserCredentialsFromDatabase at hcmd
  split at hcmd
  · cases hcmd
  · cases List.mem_singleton.1 hcmd
    cases hcb
    trivial

theorem registers_of_press {P : Accounts.Platform} {p : Accounts.Press} {d d' : Device}
    {cmds : List Accounts.Command} (h : Accounts.press P p d = some (d', cmds)) :
    ∀ cmd ∈ cmds, ∀ cb ∈ cmd.completion, Registers P cb := by
  intro cmd hcmd cb hcb
  cases Accounts.pressed_of_press h with
  | logIn | load => exact registers_getUserCredentialsFromDatabase cmd hcmd cb hcb
  | register =>
    unfold Accounts.registrationUserIntoDB at hcmd
    split at hcmd
    · cases hcmd
    · cases List.mem_singleton.1 hcmd
      cases hcb
      rfl
  | signOut | launch => cases hcmd
  | change =>
    unfold Accounts.changeUser at hcmd
    split at hcmd
    · cases hcmd
    · rcases List.mem_cons.1 hcmd with rfl | hcmd
      · cases hcb
      · exact registers_getUserCredentialsFromDatabase cmd hcmd cb hcb
  | pick =>
    unfold Accounts.uploadNewUserImageIntoDB at hcmd
    split at hcmd
    · cases hcmd
    · split at hcmd
      · cases hcmd
      · cases List.mem_singleton.1 hcmd
        cases hcb
        trivial

theorem registers_of_callback {P : Accounts.Platform} {cb : Accounts.Cb}
    {input : Input Accounts.Loc} {d d' : Device} {cmds : List Accounts.Command}
    (hcb : Registers P cb) (h : Accounts.callback P cb input d = (d', cmds)) :
    ∀ cmd ∈ cmds, ∀ cb ∈ cmd.completion, Registers P cb := by
  intro cmd hcmd cb' hcb'
  cases Accounts.called_of_callback h with
  | ignored | credentialsRead => cases hcmd
  | imageStored =>
    cases List.mem_singleton.1 hcmd
    cases hcb'
    exact hcb
  | urlFetched =>
    cases List.mem_singleton.1 hcmd
    cases hcb'
  | newImageStored =>
    cases List.mem_singleton.1 hcmd
    cases hcb'
    trivial
  | newURLFetched =>
    rcases List.mem_cons.1 hcmd with rfl | hcmd
    · cases hcb'
    · exact registers_getUserCredentialsFromDatabase cmd hcmd cb' hcb'

/-- So does a callback that is one of the accounts. -/
def Cb.Registers (P : Accounts.Platform) : Cb → Prop
  | .account cb => Sessions.Registers P cb
  | .profileRead .. | .usersRead _ | .friend .. => True

theorem registers_of_awaited {cb : Cb} (h : Awaited (Registers P.toPlatform) cb) :
    cb.Registers P.toPlatform := by
  cases h with
  | account h => exact h
  | profileRead | friend => trivial

/-- Whatever a device waits for goes on with the right e-mail. -/
theorem registers_of_reaches (hs : Initial s₀) (h : Reaches (step (program P)) ok s₀ s) :
    ∀ c, ∀ cb ∈ s.pending c, cb.Registers P.toPlatform := by
  refine h.invariant (I := fun s => ∀ c, ∀ cb ∈ s.pending c, cb.Registers P.toPlatform) ?_ ?_
  · intro c cb hcb
    simp [State.pending, hs.writes, hs.asks, hs.tasks, hs.childObs, hs.valueObs] at hcb
  · intro t l u ih _ hstep
    refine pending_step (Q := fun _ cb => cb.Registers P.toPlatform) (fun _ _ _ => id) ?_ ?_ ih
      (transition_of_step hstep)
    · intro a e app c app' cmds log hact cb hcb
      obtain ⟨cmd, hcmd, hcb⟩ := List.mem_map.1 hcb
      obtain ⟨⟨app'', cmds'⟩, hpress, he⟩ := Option.map_eq_some_iff.1 hact
      cases he
      by_cases hp : ∃ query, a.press = .getUsersFromDatabase query
      · obtain ⟨query, hp⟩ := hp
        rw [hp] at hpress
        obtain ⟨-, he⟩ := Option.ite_none_left_eq_some.1 hpress
        cases he
        cases List.mem_singleton.1 hcmd
        cases hcb
        trivial
      · exact registers_of_awaited (awaited_of_press (fun _ _ _ _ => registers_of_press) hpress
          (fun query he => hp ⟨query, he⟩) cmd hcmd cb hcb)
    · intro c e cb input app log hcb cb' hcb'
      obtain ⟨cmd, hcmd, hcb'⟩ := List.mem_map.1 hcb'
      refine registers_of_awaited (awaited_of_callback ?_ rfl cmd hcmd cb' hcb')
      rintro cb input' d d' cmds rfl hcallback
      exact registers_of_callback hcb hcallback

/-! ## Profiles -/

/-- An e-mail is the one that `Auth` has. -/
def EmailOfAccount (P : Platform) (uid : UID) (text : Text) (value : String) : Prop :=
  text = .email → value = P.email uid

/-- The e-mails of the profiles are those of the accounts. -/
def Emails (P : Platform) : (l : Loc) → Val l → Prop
  | .users, directory => Tree.All (ValuesIn (EmailOfAccount P)) directory
  | .friend _, _ => True

theorem mergeable_emails : Mergeable (Emails P) := by
  rintro (_ | l) new old hnew hold
  · exact Tree.All.foldl_update (mergeable_valuesIn _) hold fun user huser =>
      hnew user.1 user.2 (AList.mem_lookup_iff.2 huser)
  · trivial

/-- Only a registration writes an e-mail. -/
theorem stores_emails {ev : SEvent} (hw : Wrote P app ev op)
    (hev : ∀ t e, ev = .ran t e → t.cb.Registers P.toPlatform) : op.Stores (Emails P) := by
  rintro l v rfl
  cases hw with
  | @edit c p e uid dict hu hdict =>
    refine valuesIn_single fun text value hvalue htext => ?_
    subst htext
    cases p <;> cases hdict <;> cases hvalue
  | registration =>
    refine valuesIn_single fun text value hvalue htext => ?_
    subst htext
    cases hvalue
    exact hev _ _ rfl
  | picture =>
    refine valuesIn_single fun text value hvalue htext => ?_
    subst htext
    cases hvalue
  | request | friend | index => trivial

theorem stores_emails_of_reaches (hs : Initial s₀) (h : Reaches (step (program P)) ok s₀ s) :
    ∀ w ∈ s.writes, w.op.Stores (Emails P) := by
  refine h.invariant_of_reached (I := fun s => ∀ w ∈ s.writes, w.op.Stores (Emails P))
    (by simp [hs.writes]) fun {t l u} ht ih _ hstep w hw => ?_
  cases transition_of_step hstep with
  | @press a e c app cmds hkey hact =>
    rcases List.mem_append.1 hw with hw | hw
    · exact ih w hw
    · obtain ⟨⟨app', cmds'⟩, hpress, he⟩ := Option.map_eq_some_iff.1 hact
      cases he
      exact stores_emails (wrote_of_press (e := e) hpress (mem_newWrites.1 hw).2)
        fun _ _ he => by cases he
  | @run i e task app cmds hkey htask hrun =>
    rcases List.mem_append.1 hw with hw | hw
    · exact ih w hw
    · refine stores_emails (wrote_of_callback (e := e) hrun (mem_newWrites.1 hw).2) ?_
      intro _ _ he
      cases he
      exact registers_of_reaches hs ht _ _ (mem_pending_of_task (List.mem_of_getElem? htask))
  | apply | reject => exact ih w (List.mem_of_mem_eraseIdx hw)
  | serve => exact ih w hw
  | die => exact ih w (List.mem_filter.1 hw).1

/-! ## What devices know -/

/-- A device knows the e-mail of whoever is signed in, and those of all whom it shows. -/
structure KnowsEmails (P : Platform) (app : App) (c : Client) : Prop where
  own : ∀ uid, app.currentUser c = some uid → (app.device c).user ≠ {} →
    (app.device c).user.email = P.email uid
  listed : ∀ x peer, Listed app c x → paramsOf x = some peer → peer.email = P.email peer.uid

section Run

variable (hs : Start s₀) (htree : s₀.tree = ∅)
include hs htree

theorem emails_of_reaches (h : Reaches (step (program P)) ok s₀ s) : s.tree.All (Emails P) :=
  all_of_reaches mergeable_emails (fun l v hv => by simp [htree] at hv)
    (fun _ ht => stores_emails_of_reaches hs.initial ht) h

/-- What a device sees in a profile as an e-mail is that of the account. -/
theorem email_of_visible {value : String} (h : Reaches (step (program P)) ok s₀ s)
    (hf : copying.Visible s ⟨some uid, .email, value⟩) : value = P.email uid := by
  have hall : ∀ t : Realtime.Tree Loc, t.All (Emails P) →
      copying.HeldIn t ⟨some uid, .email, value⟩ → value = P.email uid := by
    intro t ht hheld
    obtain ⟨directory, uid', hv, huid, hheld⟩ := heldIn_iff.1 hheld
    obtain rfl := huid uid rfl
    exact all_valuesIn.1 (ht .users directory hv) uid .email value hheld rfl
  rcases hf with hf | ⟨c, hf⟩
  · exact hall _ (emails_of_reaches hs htree h) hf
  · exact hall _ (all_view mergeable_emails (emails_of_reaches hs htree h)
      (stores_emails_of_reaches hs.initial h)) hf

variable (h : Reaches (step (program P)) (fun s l => SameSession s l ∧ Presents s l) s₀ s)
include h

/-- What was copied as an e-mail is that of the account. -/
theorem sighted_emails : copying.Sighted
    (fun f => f.text = .email → ∀ uid, f.uid = some uid → f.value = P.email uid) s := by
  refine (Copying.sighted_of_reaches merges hs.initial htree (not_holds_of_start hs)
    (fun t l _ hl => copies_of_presents hl.1 hl.2) h).mono ?_
  rintro ⟨_, _, value⟩ ⟨t, ht, -, hvisible⟩ rfl uid rfl
  exact email_of_visible hs htree ht hvisible

theorem knowsEmails_of_reaches (c : Client) : KnowsEmails P s.app c where
  own uid hu hfilled := by
    have hmemory := (sighted_emails hs htree h).memory c
      ⟨some uid, .email, (s.app.device c).user.email⟩
      (.inl ⟨uid, hu, hfilled, fun u hu => (Option.some.inj hu).symm, rfl⟩)
    exact hmemory rfl uid rfl
  listed x peer hx hpeer := by
    have hmemory := (sighted_emails hs htree h).memory c ⟨some peer.uid, .email, peer.email⟩
      (.inr ⟨x, hx, carriedBy_of_paramsOf hpeer ⟨fun u hu => (Option.some.inj hu).symm, rfl⟩⟩)
    exact hmemory rfl peer.uid rfl

/-- Both users of a request have the e-mails of their accounts. -/
theorem genuine_of_reaches {key : String} {dict : RequestDict}
    (hdict : s.tree.lookup (.friend (.friendRequest key)) = some dict) :
    Friends.Genuine P.email dict.fromId dict.fromIdUser ∧
      Friends.Genuine P.email dict.toId dict.toIdUser := by
  obtain ⟨hfrom, hto⟩ := wellFormed_of_reaches hs htree h _ _ hdict
  have hemail : ∀ side, (dict.side side).email = P.email (dict.side side).uid := by
    intro side
    exact (sighted_emails hs htree h).tree _ _ (by simp [copying]) hdict
      ⟨some (dict.side side).uid, .email, (dict.side side).email⟩
      ⟨side, fun u hu => (Option.some.inj hu).symm, rfl⟩ rfl _ rfl
  refine ⟨⟨hfrom, ?_⟩, hto, ?_⟩
  · rw [← hfrom]
    exact hemail .fromIdUser
  · rw [← hto]
    exact hemail .toIdUser

end Run

end FLChat.Sessions
