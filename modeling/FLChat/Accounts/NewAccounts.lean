import FLChat.Accounts.LoginForm

/-!
# Who gets a new account

`customErrors` offers an account where a sign-in failed because there is no such user. `Auth` is asked
for one only after the user said yes to that, once for each yes, with an e-mail and a password that
were typed and have six characters (`created_as_confirmed`). They are read when the user says yes, and
need not be those that were declined: the fields can be edited while a sign-in is on its way. If they
are not, no other account is made than the one that was offered (`created_as_offered`).
-/

namespace FLChat.Accounts.LoginForm

open Realtime

variable {P : Platform} {s₀ s s' : LState} {l : LLabel} {c : Client} {f f' : LoginForm} {ev : LEvent}
  {log : List LEvent} {email password : String}

/-! ## What happens to a form -/

/-- What an event does to the form of `c`. -/
inductive Change (P : Platform) (c : Client) (f : LoginForm) : LEvent → LoginForm → Prop
  | editEmail {text : String} {e : Env} (h : f.alert = none) :
    Change P c f (.pressed ⟨c, .editEmail text⟩ e) { f with emailField := text }
  | editPassword {text : String} {e : Env} (h : f.alert = none) :
    Change P c f (.pressed ⟨c, .editPassword text⟩ e) { f with passwordField := text }
  | login {e : Env} :
    Change P c f (.pressed ⟨c, .loginBtnPressed⟩ e)
      (f.call (.signIn f.emailField f.passwordField))
  | facebook {e : Env} :
    Change P c f (.pressed ⟨c, .facebookBtnPressed⟩ e) (f.call .facebookLogin)
  | google {authentication : Bool} {e : Env} :
    Change P c f (.pressed ⟨c, .didSignInFor authentication⟩ e) (f.call .googleAuth)
  | answered {call : Call} {answer : Answer} {e : Env} {d d' : Device} {f' : LoginForm}
    {cmds : List Command} (hcall : call ∈ f.calls)
    (h : Answered P d { f with calls := f.calls.erase call } call answer d' f' cmds) :
    Change P c f (.pressed ⟨c, .answered call answer⟩ e) f'
  | yes {e : Env} {message : String} {d : Device} (h : f.alert = some (.customErrors message)) :
    Change P c f (.pressed ⟨c, .yes⟩ e) (f.yes P d)
  | dismissed {p : Press} {e : Env} (hp : p = .tryAgain ∨ p = .ok) :
    Change P c f (.pressed ⟨c, p⟩ e) { f with alert := none }
  | cleared {t : Task Loc Client Cb} {e : Env} :
    Change P c f (.ran t e) f.clearEmailAndPassFieldsAfterLogin
  | died : Change P c f (.died c) {}
  | untouched {ev : LEvent}
    (hanswered : ∀ call answer e, ev ≠ .pressed ⟨c, .answered call answer⟩ e)
    (hyes : ∀ e, ev ≠ .pressed ⟨c, .yes⟩ e) : Change P c f ev f

theorem change_of_press {p : Press} {d d' : Device} {cmds : List Command} {e : Env}
    (h : press P p d f = some (d', f', cmds)) : Change P c f (.pressed ⟨c, p⟩ e) f' := by
  unfold press at h
  split at h
  · cases h
  cases p with
  | editEmail =>
    obtain ⟨hfront, he⟩ := Option.ite_none_right_eq_some.1 h
    cases he
    exact .editEmail (Option.isNone_iff_eq_none.1 (Bool.and_eq_true_iff.1 hfront).2)
  | editPassword =>
    obtain ⟨hfront, he⟩ := Option.ite_none_right_eq_some.1 h
    cases he
    exact .editPassword (Option.isNone_iff_eq_none.1 (Bool.and_eq_true_iff.1 hfront).2)
  | loginBtnPressed =>
    obtain ⟨-, he⟩ := Option.ite_none_right_eq_some.1 h
    cases he
    exact .login
  | facebookBtnPressed =>
    obtain ⟨-, he⟩ := Option.ite_none_right_eq_some.1 h
    cases he
    exact .facebook
  | didSignInFor authentication =>
    cases authentication with
    | true =>
      cases h
      exact .google
    | false =>
      cases h
      exact .untouched (fun _ _ _ he => by cases he) (fun _ he => by cases he)
  | answered call answer =>
    obtain ⟨hcall, hanswered⟩ := Option.ite_none_right_eq_some.1 h
    exact .answered hcall (answered_of_eq hanswered)
  | yes =>
    simp only at h
    split at h
    · next message halert =>
      cases h
      exact .yes halert
    · cases h
  | tryAgain =>
    simp only at h
    split at h
    · cases h
      exact .dismissed (.inl rfl)
    · cases h
  | ok =>
    simp only at h
    split at h
    · cases h
      exact .dismissed (.inr rfl)
    · cases h
  | other p =>
    obtain ⟨d₁, cmds₁, -, -, rfl, -, -⟩ := eq_of_other h
    exact .untouched (fun _ _ _ he => by cases he) (fun _ he => by cases he)

theorem change_of_transition (h : Transition (program P) s l s') (c : Client) :
    ∃ ev, s'.log = ev :: s.log ∧ (∀ a e, ev = .pressed a e → l = .press a e) ∧
      Change P c (s.app.form c) ev (s'.app.form c) := by
  cases h with
  | @press a e c' app cmds _ hact =>
    refine ⟨_, rfl, fun a e he => by cases he; rfl, ?_⟩
    obtain ⟨⟨d, f, cmds⟩, hpress, he⟩ := Option.map_eq_some_iff.1 hact
    cases he
    obtain ⟨c', p⟩ := a
    by_cases hc : c = c'
    · subst hc
      have hform : (s.app.set c d f).form c = f := Function.update_self ..
      rw [State.pressed_app, hform]
      exact change_of_press hpress
    · have hform : (s.app.set c' d f).form c = s.app.form c := Function.update_of_ne hc ..
      rw [State.pressed_app, hform]
      exact .untouched (fun _ _ _ he => by cases he; exact hc rfl)
        (fun _ he => by cases he; exact hc rfl)
  | @run i e t app cmds _ ht hrun =>
    refine ⟨_, rfl, fun _ _ he => (by cases he), ?_⟩
    have happ : ((program P).handle t.client e t.cb t.input s.app).1 = app := congrArg Prod.fst hrun
    by_cases hc : c = t.client
    · have hform : app.form c = (callback P t.cb t.input (s.app.device c) (s.app.form c)).2.1 := by
        rw [← happ, hc]
        exact Function.update_self ..
      rw [State.ran_app, hform]
      unfold callback
      dsimp only
      split
      · exact .cleared
      · exact .untouched (fun _ _ _ he => by cases he) (fun _ he => by cases he)
    · have hform : app.form c = s.app.form c := by
        rw [← happ]
        exact Function.update_of_ne hc ..
      rw [State.ran_app, hform]
      exact .untouched (fun _ _ _ he => by cases he) (fun _ he => by cases he)
  | apply | reject | serve =>
    exact ⟨_, rfl, fun _ _ he => (by cases he),
      .untouched (fun _ _ _ he => by cases he) (fun _ he => by cases he)⟩
  | @die c' =>
    refine ⟨_, rfl, fun _ _ he => (by cases he), ?_⟩
    by_cases hc : c = c'
    · subst hc
      have hform : (s.died c ((program P).die c s.app)).app.form c = {} := Function.update_self ..
      rw [hform]
      exact .died
    · have hform : (s.died c' ((program P).die c' s.app)).app.form c = s.app.form c :=
        Function.update_of_ne hc ..
      rw [hform]
      exact .untouched (fun _ _ _ he => by cases he) (fun _ he => by cases he)

/-! ## One account for each yes -/

/-- The press of `c` is one of `kind`. -/
def did (c : Client) (kind : Press → Bool) : LEvent → Bool
  | .pressed a _ => decide (a.client = c) && kind a.press
  | _ => false

/-- `Auth` does not know the user of a sign-in. -/
def declines : Press → Bool
  | .answered (.signIn ..) (.error description) => decide (description = NOT_FIND_THIS_USER)
  | _ => false

def confirms (p : Press) : Bool := decide (p = .yes)

/-- `Auth` has answered a request for a new account. -/
def creates : Press → Bool
  | .answered (.createUser ..) _ => true
  | _ => false

def isCreateUser : Call → Bool
  | .createUser .. => true
  | _ => false

/-- How often `Auth` was asked for an account, as far as the process lived to know. -/
def creations (c : Client) (log : List LEvent) (f : LoginForm) : ℕ :=
  log.countP (did c creates) + f.calls.countP isCreateUser

/-- The alert offers an account. -/
def asking (f : LoginForm) : ℕ :=
  match f.alert with
  | some (.customErrors _) => 1
  | _ => 0

/-- Each account is asked for after a yes of its own, and each yes is to an offer of its own. -/
structure Counted (c : Client) (log : List LEvent) (f : LoginForm) : Prop where
  creations_le : creations c log f ≤ log.countP (did c confirms)
  confirmed_le : log.countP (did c confirms) + f.asking ≤ log.countP (did c declines)

theorem did_self (kind : Press → Bool) (p : Press) (e : Env) :
    did c kind (.pressed ⟨c, p⟩ e) = kind p := by
  simp [did]

/-- Nothing but answers and the yes counts. -/
theorem not_counted (hanswered : ∀ call answer e, ev ≠ .pressed ⟨c, .answered call answer⟩ e)
    (hyes : ∀ e, ev ≠ .pressed ⟨c, .yes⟩ e) :
    did c creates ev = false ∧ did c confirms ev = false := by
  cases ev with
  | pressed a e =>
    obtain ⟨c', p⟩ := a
    by_cases hc : c' = c
    · subst hc
      rw [did_self, did_self]
      cases p with
      | answered call answer => exact absurd rfl (hanswered call answer e)
      | yes => exact absurd rfl (hyes e)
      | _ => exact ⟨rfl, rfl⟩
    · simp [did, hc]
  | ran | resolved | served | died => exact ⟨rfl, rfl⟩

/-- An event that neither asks for an account nor accepts an offer. -/
theorem Counted.quiet (h : Counted c log f) (hcreates : did c creates ev = false)
    (hconfirms : did c confirms ev = false)
    (hcalls : f'.calls.countP isCreateUser ≤ f.calls.countP isCreateUser)
    (hasking : f'.asking ≤ f.asking + if did c declines ev then 1 else 0) :
    Counted c (ev :: log) f' := by
  obtain ⟨hcreations, hconfirmed⟩ := h
  unfold creations at hcreations
  constructor
  · unfold creations
    simp only [List.countP_cons, hcreates, hconfirms, Bool.false_eq_true, if_false]
    omega
  · simp only [List.countP_cons, hconfirms, Bool.false_eq_true, if_false]
    omega

theorem present_calls (d : Device) (alert : Alert) (f : LoginForm) :
    (f.present d alert).calls = f.calls := by
  unfold present
  split <;> rfl

/-- What is asked for stays, and an offer is made only where a user is not known. -/
theorem Answered.counts {call : Call} {answer : Answer} {d d' : Device} {cmds : List Command}
    (h : Answered P d f call answer d' f' cmds) :
    f'.calls.countP isCreateUser = f.calls.countP isCreateUser ∧
      f'.asking ≤ f.asking + if declines (.answered call answer) then 1 else 0 := by
  cases h with
  | signedIn => exact ⟨rfl, Nat.le_add_right ..⟩
  | unknownUser =>
    refine ⟨by rw [customErrors, present_calls], ?_⟩
    unfold customErrors present
    split
    · exact Nat.le_add_left ..
    · exact Nat.le_add_right ..
  | failed =>
    refine ⟨by rw [standartErrors, present_calls], ?_⟩
    unfold standartErrors present
    split
    · exact Nat.zero_le _
    · exact Nat.le_add_right ..
  | token => exact ⟨by simp [LoginForm.call, isCreateUser], Nat.le_add_right ..⟩
  | ignored => exact ⟨rfl, Nat.le_add_right ..⟩

/-- A yes asks for one account at most, and the offer is gone. -/
theorem yes_counts {d : Device} :
    (f.yes P d).calls.countP isCreateUser ≤ f.calls.countP isCreateUser + 1 ∧
      (f.yes P d).asking = 0 := by
  have alerted : ∀ message, asking (standartErrors d message { f with alert := none }) = 0 := by
    intro message
    unfold standartErrors present
    split <;> rfl
  unfold yes
  dsimp only
  split
  · exact ⟨by rw [standartErrors, present_calls]; exact Nat.le_succ _, alerted _⟩
  · split
    · exact ⟨by rw [standartErrors, present_calls]; exact Nat.le_succ _, alerted _⟩
    · exact ⟨by simp [LoginForm.call, isCreateUser], rfl⟩

theorem Counted.change (h : Counted c log f) (hchange : Change P c f ev f') :
    Counted c (ev :: log) f' := by
  cases hchange with
  | editEmail | editPassword =>
    exact h.quiet (did_self ..) (did_self ..) le_rfl (Nat.le_add_right ..)
  | login | facebook | google =>
    refine h.quiet (did_self ..) (did_self ..) ?_ (Nat.le_add_right ..)
    simp [LoginForm.call, isCreateUser]
  | @answered call answer e d d' f' cmds hcall hanswered =>
    obtain ⟨hcalls, hasking⟩ := hanswered.counts
    obtain ⟨hcreations, hconfirmed⟩ := h
    have hcreates : did c creates (.pressed ⟨c, .answered call answer⟩ e) = isCreateUser call := by
      rw [did_self]
      cases call <;> rfl
    have hconfirms : did c confirms (.pressed ⟨c, .answered call answer⟩ e) = false := did_self ..
    -- a request that is answered is one fewer that waits
    have herase : f.calls.countP isCreateUser = (f.calls.erase call).countP isCreateUser +
        if isCreateUser call then 1 else 0 := by
      rw [(List.perm_cons_erase hcall).countP_eq, List.countP_cons]
    unfold creations at hcreations
    constructor
    · unfold creations
      simp only [List.countP_cons, hcreates, hconfirms, hcalls, Bool.false_eq_true, if_false]
      omega
    · have hasks : asking { f with calls := f.calls.erase call } = f.asking := rfl
      rw [hasks] at hasking
      simp only [List.countP_cons, hconfirms, did_self, Bool.false_eq_true, if_false]
      omega
  | @yes e message d halert =>
    obtain ⟨hcalls, hasking⟩ := yes_counts (P := P) (d := d) (f := f)
    obtain ⟨hcreations, hconfirmed⟩ := h
    have hasks : f.asking = 1 := by simp [asking, halert]
    have hconfirms : did c confirms (.pressed ⟨c, .yes⟩ e) = true := did_self ..
    have hcreates : did c creates (.pressed ⟨c, .yes⟩ e) = false := did_self ..
    unfold creations at hcreations
    constructor
    · unfold creations
      simp only [List.countP_cons, hcreates, hconfirms, Bool.false_eq_true, if_false, if_true]
      omega
    · simp only [List.countP_cons, hconfirms, if_true]
      omega
  | dismissed hp =>
    rcases hp with rfl | rfl <;>
      exact h.quiet (did_self ..) (did_self ..) le_rfl (Nat.zero_le _)
  | cleared => exact h.quiet rfl rfl le_rfl (Nat.le_add_right ..)
  | died => exact h.quiet rfl rfl (Nat.zero_le _) (Nat.zero_le _)
  | untouched hanswered hyes =>
    obtain ⟨hcreates, hconfirms⟩ := not_counted hanswered hyes
    exact h.quiet hcreates hconfirms le_rfl (Nat.le_add_right ..)

/-! ## What is asked for -/

/-- `Auth` was asked `call`. -/
def Made (c : Client) (log : List LEvent) (f : LoginForm) (call : Call) : Prop :=
  call ∈ f.calls ∨ ∃ answer e, .pressed ⟨c, .answered call answer⟩ e ∈ log

/-- What an answer leaves of the form. -/
theorem Answered.fields {call : Call} {answer : Answer} {d d' : Device} {cmds : List Command}
    (h : Answered P d f call answer d' f' cmds) :
    f'.emailField = f.emailField ∧ f'.passwordField = f.passwordField ∧
      (f'.calls = f.calls ∨ f'.calls = f.calls ++ [.facebookAuth]) := by
  have hpresent : ∀ alert, (f.present d alert).emailField = f.emailField ∧
      (f.present d alert).passwordField = f.passwordField := by
    intro alert
    unfold present
    split <;> exact ⟨rfl, rfl⟩
  cases h with
  | signedIn | ignored => exact ⟨rfl, rfl, .inl rfl⟩
  | unknownUser => exact ⟨(hpresent _).1, (hpresent _).2, .inl (present_calls ..)⟩
  | failed => exact ⟨(hpresent _).1, (hpresent _).2, .inl (present_calls ..)⟩
  | token => exact ⟨rfl, rfl, .inr rfl⟩

/-- What a yes leaves of the form, and what it asks for. -/
theorem yes_fields {d : Device} :
    (f.yes P d).emailField = f.emailField ∧ (f.yes P d).passwordField = f.passwordField ∧
      ((f.yes P d).calls = f.calls ∨ 6 ≤ P.count f.emailField ∧ 6 ≤ P.count f.passwordField ∧
        (f.yes P d).calls = f.calls ++ [.createUser f.emailField f.passwordField]) := by
  have alerted : ∀ message,
      (standartErrors d message { f with alert := none }).emailField = f.emailField ∧
        (standartErrors d message { f with alert := none }).passwordField = f.passwordField ∧
          (standartErrors d message { f with alert := none }).calls = f.calls := by
    intro message
    unfold standartErrors present
    split <;> exact ⟨rfl, rfl, rfl⟩
  unfold yes
  dsimp only
  split
  · exact ⟨(alerted _).1, (alerted _).2.1, .inl (alerted _).2.2⟩
  · next hpassword =>
    split
    · exact ⟨(alerted _).1, (alerted _).2.1, .inl (alerted _).2.2⟩
    · next hemail => exact ⟨rfl, rfl, .inr ⟨Nat.not_lt.1 hemail, Nat.not_lt.1 hpassword, rfl⟩⟩

/-- An account that was asked for was so before, or is by the yes to an offer. -/
theorem made_cases (h : Change P c f ev f')
    (hmade : Made c (ev :: log) f' (.createUser email password)) :
    Made c log f (.createUser email password) ∨
      (∃ message, f.alert = some (.customErrors message)) ∧ email = f.emailField ∧
        password = f.passwordField ∧ 6 ≤ P.count email ∧ 6 ≤ P.count password := by
  rcases hmade with hcall | ⟨answer, e, hev⟩
  · have asked : ∀ {call : Call}, call ≠ .createUser email password →
        .createUser email password ∈ f.calls ++ [call] →
          Made c log f (.createUser email password) := by
      intro call hne hmem
      rcases List.mem_append.1 hmem with hmem | hmem
      · exact .inl hmem
      · exact absurd (List.mem_singleton.1 hmem).symm hne
    cases h with
    | editEmail | editPassword | dismissed | cleared | untouched => exact .inl (.inl hcall)
    | login | facebook | google => exact .inl (asked (by simp) hcall)
    | died => cases hcall
    | @answered call answer e d d' f' cmds hmem hanswered =>
      refine .inl (.inl (List.mem_of_mem_erase (b := call) ?_))
      rcases hanswered.fields.2.2 with he | he
      · rwa [he] at hcall
      · rw [he] at hcall
        exact (List.mem_append.1 hcall).resolve_right (by simp)
    | @yes e message d halert =>
      rcases (yes_fields (P := P) (d := d) (f := f)).2.2 with he | ⟨hemail, hpassword, he⟩
      · exact .inl (.inl (he ▸ hcall))
      · rw [he] at hcall
        rcases List.mem_append.1 hcall with hcall | hcall
        · exact .inl (.inl hcall)
        · cases List.mem_singleton.1 hcall
          exact .inr ⟨⟨message, halert⟩, rfl, rfl, hemail, hpassword⟩
  · rcases List.mem_cons.1 hev with rfl | hev
    · cases h with
      | answered hcall => exact .inl (.inl hcall)
      | dismissed hp => rcases hp with hp | hp <;> cases hp
      | untouched hanswered => exact absurd rfl (hanswered _ _ _)
    · exact .inl (.inr ⟨answer, e, hev⟩)

/-- The text was typed into the field that `edit` edits, or it was left empty. -/
def Typed (c : Client) (log : List LEvent) (edit : String → Press) (text : String) : Prop :=
  text = "" ∨ ∃ e, .pressed ⟨c, edit text⟩ e ∈ log

theorem Typed.cons {edit : String → Press} {text : String} (h : Typed c log edit text)
    (ev : LEvent) : Typed c (ev :: log) edit text :=
  h.imp_right fun ⟨e, he⟩ => ⟨e, List.mem_cons_of_mem _ he⟩

/-- The e-mail and the password of a new account were typed and are long enough. -/
structure Meant (P : Platform) (c : Client) (log : List LEvent) (email password : String) :
    Prop where
  email_count : 6 ≤ P.count email
  password_count : 6 ≤ P.count password
  email_typed : ∃ e, .pressed ⟨c, .editEmail email⟩ e ∈ log
  password_typed : ∃ e, .pressed ⟨c, .editPassword password⟩ e ∈ log

/-- What the fields hold was typed, and so was every account that was asked for. -/
structure Filled (P : Platform) (c : Client) (log : List LEvent) (f : LoginForm) : Prop where
  email : Typed c log .editEmail f.emailField
  password : Typed c log .editPassword f.passwordField
  made : ∀ email password, Made c log f (.createUser email password) → Meant P c log email password

theorem Change.typed (h : Change P c f ev f') (hemail : Typed c log .editEmail f.emailField)
    (hpassword : Typed c log .editPassword f.passwordField) :
    Typed c (ev :: log) .editEmail f'.emailField ∧
      Typed c (ev :: log) .editPassword f'.passwordField := by
  have hsame : ∀ {f'' : LoginForm}, f''.emailField = f.emailField →
      f''.passwordField = f.passwordField → Typed c (ev :: log) .editEmail f''.emailField ∧
        Typed c (ev :: log) .editPassword f''.passwordField := by
    intro f'' he hp
    rw [he, hp]
    exact ⟨hemail.cons ev, hpassword.cons ev⟩
  cases h with
  | editEmail => exact ⟨.inr ⟨_, List.mem_cons_self⟩, hpassword.cons _⟩
  | editPassword => exact ⟨hemail.cons _, .inr ⟨_, List.mem_cons_self⟩⟩
  | login | facebook | google | dismissed | untouched => exact hsame rfl rfl
  | answered _ hanswered => exact hsame hanswered.fields.1 hanswered.fields.2.1
  | yes => exact hsame yes_fields.1 yes_fields.2.1
  | cleared | died => exact ⟨.inl rfl, .inl rfl⟩

theorem Filled.change (h : Filled P c log f) (hchange : Change P c f ev f') :
    Filled P c (ev :: log) f' := by
  obtain ⟨hemail, hpassword⟩ := hchange.typed h.email h.password
  refine ⟨hemail, hpassword, fun email password hmade => ?_⟩
  have hempty : ¬ 6 ≤ P.count "" := by simp [P.count_empty]
  rcases made_cases hchange hmade with hmade | ⟨-, rfl, rfl, hlong, hlong'⟩
  · obtain ⟨hlong, hlong', ⟨e, he⟩, e', he'⟩ := h.made email password hmade
    exact ⟨hlong, hlong', ⟨e, List.mem_cons_of_mem _ he⟩, e', List.mem_cons_of_mem _ he'⟩
  · have hemail' := (h.email.cons ev).resolve_left fun he => hempty (he ▸ hlong)
    have hpassword' := (h.password.cons ev).resolve_left fun he => hempty (he ▸ hlong')
    exact ⟨hlong, hlong', hemail', hpassword'⟩

def AnyStep (_ : LState) (_ : LLabel) : Prop := True

instance (s : LState) : DecidablePred (AnyStep s) := fun _ => inferInstanceAs (Decidable True)

/-- Every process is new, and nothing has happened. -/
structure Opened (s : LState) : Prop where
  log : s.log = []
  form : ∀ c, s.app.form c = {}

/-- In every run, whatever `Auth` answers and in whatever order: `Auth` is asked for accounts at most
as often as the user said yes, and that is at most as often as `Auth` did not know a user. What it is
asked for was typed, with six characters or more. -/
theorem created_as_confirmed (hs : Opened s₀) (h : Reaches (step (program P)) AnyStep s₀ s)
    (c : Client) :
    creations c s.log (s.app.form c) ≤ s.log.countP (did c confirms) ∧
      s.log.countP (did c confirms) ≤ s.log.countP (did c declines) ∧
        ∀ email password, Made c s.log (s.app.form c) (.createUser email password) →
          Meant P c s.log email password := by
  have hinv : Counted c s.log (s.app.form c) ∧ Filled P c s.log (s.app.form c) := by
    induction h with
    | refl =>
      rw [hs.log, hs.form c]
      refine ⟨⟨le_rfl, le_rfl⟩, .inl rfl, .inl rfl, fun email password hmade => ?_⟩
      rcases hmade with hcall | ⟨_, _, hev⟩
      · cases hcall
      · cases hev
    | tail _ _ hstep ih =>
      obtain ⟨ev, hlog, -, hchange⟩ := change_of_transition (transition_of_step hstep) c
      rw [hlog]
      exact ⟨ih.1.change hchange, ih.2.change hchange⟩
  obtain ⟨hcounted, hfilled⟩ := hinv
  exact ⟨hcounted.creations_le, (Nat.le_add_right ..).trans hcounted.confirmed_le, hfilled.made⟩

/-! ## The account that was offered -/

/-- `Auth` does not know a user with this e-mail and password. -/
def Declined (c : Client) (log : List LEvent) (email password : String) : Prop :=
  ∃ e, .pressed ⟨c, .answered (.signIn email password) (.error NOT_FIND_THIS_USER)⟩ e ∈ log

/-- The fields are as they were when the sign-in was pressed, or they were cleared since. -/
def Holds (f : LoginForm) (email password : String) : Prop :=
  f.emailField = email ∧ f.passwordField = password ∨ f.passwordField = ""

def isSignIn : Call → Bool
  | .signIn .. => true
  | _ => false

/-- No field is edited while a sign-in is on its way. -/
def EditsAtRest (s : LState) : LLabel → Prop
  | .press ⟨c, .editEmail _⟩ _ | .press ⟨c, .editPassword _⟩ _ =>
    ∀ call ∈ (s.app.form c).calls, isSignIn call = false
  | _ => True

/-- What is asked, what is offered and what is made is the same. -/
structure Offered (c : Client) (log : List LEvent) (f : LoginForm) : Prop where
  waiting : ∀ email password, .signIn email password ∈ f.calls → Holds f email password
  offer : ∀ message, f.alert = some (.customErrors message) →
    ∃ email password, Declined c log email password ∧ Holds f email password
  made : ∀ email password, Made c log f (.createUser email password) →
    Declined c log email password

theorem Declined.cons (h : Declined c log email password) (ev : LEvent) :
    Declined c (ev :: log) email password :=
  h.imp fun _ he => List.mem_cons_of_mem _ he

/-- A new account is the one that was offered. -/
theorem Offered.made_change (h : Offered c log f) (hchange : Change P c f ev f')
    (hmade : Made c (ev :: log) f' (.createUser email password)) :
    Declined c (ev :: log) email password := by
  rcases made_cases hchange hmade with hmade | ⟨⟨message, halert⟩, rfl, rfl, -, hlong⟩
  · exact (h.made email password hmade).cons ev
  · obtain ⟨email, password, hdeclined, hholds⟩ := h.offer message halert
    rcases hholds with ⟨rfl, rfl⟩ | hempty
    · exact hdeclined.cons ev
    · rw [hempty, P.count_empty] at hlong
      cases hlong

/-- Where the fields stay, so does what they hold. -/
theorem Holds.same (h : Holds f email password) (hemail : f'.emailField = f.emailField)
    (hpassword : f'.passwordField = f.passwordField) : Holds f' email password := by
  unfold Holds
  rwa [hemail, hpassword]

/-- An answer leaves the sign-ins that wait, and an offer is for a sign-in that was declined. -/
theorem Offered.answered {call : Call} {answer : Answer} {e : Env} {d d' : Device}
    {cmds : List Command} (h : Offered c log f) (hcall : call ∈ f.calls)
    (hanswered : Answered P d { f with calls := f.calls.erase call } call answer d' f' cmds) :
    (∀ email password, .signIn email password ∈ f'.calls → .signIn email password ∈ f.calls) ∧
      ∀ message, f'.alert = some (.customErrors message) → ∃ email password,
        Declined c (.pressed ⟨c, .answered call answer⟩ e :: log) email password ∧
          Holds f email password := by
  constructor
  · intro email password hmem
    rcases hanswered.fields.2.2 with he | he
    · exact List.mem_of_mem_erase (he ▸ hmem)
    · rw [he] at hmem
      exact List.mem_of_mem_erase ((List.mem_append.1 hmem).resolve_right (by simp))
  · intro message halert
    have before : ∀ message, f.alert = some (.customErrors message) → ∃ email password,
        Declined c (.pressed ⟨c, .answered call answer⟩ e :: log) email password ∧
          Holds f email password := by
      intro message halert
      obtain ⟨email, password, hdeclined, hholds⟩ := h.offer message halert
      exact ⟨email, password, hdeclined.cons _, hholds⟩
    cases hanswered with
    | signedIn | token | ignored => exact before message halert
    | unknownUser => exact ⟨_, _, ⟨e, List.mem_cons_self⟩, h.waiting _ _ hcall⟩
    | failed =>
      unfold standartErrors present at halert
      split at halert
      · cases halert
      · exact before message halert

theorem Offered.change (h : Offered c log f) (hchange : Change P c f ev f')
    (hrest : ∀ text e, ev = .pressed ⟨c, .editEmail text⟩ e ∨ ev = .pressed ⟨c, .editPassword text⟩ e →
      ∀ email password, .signIn email password ∉ f.calls) : Offered c (ev :: log) f' := by
  have hmade : ∀ email password, Made c (ev :: log) f' (.createUser email password) →
      Declined c (ev :: log) email password := fun _ _ => h.made_change hchange
  have hoffer : ∀ message, f.alert = some (.customErrors message) →
      ∃ email password, Declined c (ev :: log) email password ∧ Holds f email password := by
    intro message halert
    obtain ⟨email, password, hdeclined, hholds⟩ := h.offer message halert
    exact ⟨email, password, hdeclined.cons ev, hholds⟩
  cases hchange with
  | editEmail halert =>
    refine ⟨fun _ _ hcall => absurd hcall (hrest _ _ (.inl rfl) _ _), fun _ he => ?_, hmade⟩
    cases halert.symm.trans he
  | editPassword halert =>
    refine ⟨fun _ _ hcall => absurd hcall (hrest _ _ (.inr rfl) _ _), fun _ he => ?_, hmade⟩
    cases halert.symm.trans he
  | login =>
    refine ⟨fun email password hcall => ?_, hoffer, hmade⟩
    rcases List.mem_append.1 hcall with hcall | hcall
    · exact h.waiting _ _ hcall
    · cases List.mem_singleton.1 hcall
      exact .inl ⟨rfl, rfl⟩
  | facebook | google =>
    refine ⟨fun email password hcall => ?_, hoffer, hmade⟩
    exact h.waiting _ _ ((List.mem_append.1 hcall).resolve_right (by simp))
  | answered hcall hanswered =>
    obtain ⟨hemail, hpassword, -⟩ := hanswered.fields
    obtain ⟨hcalls, halert⟩ := h.answered hcall hanswered
    refine ⟨fun email password hmem => ?_, fun message he => ?_, hmade⟩
    · exact (h.waiting _ _ (hcalls _ _ hmem)).same hemail hpassword
    · obtain ⟨email, password, hdeclined, hholds⟩ := halert message he
      exact ⟨email, password, hdeclined, hholds.same hemail hpassword⟩
  | @yes e message d halert =>
    obtain ⟨hemail, hpassword, hcalls⟩ := yes_fields (P := P) (d := d) (f := f)
    refine ⟨fun email password hmem => ?_, fun message he => ?_, hmade⟩
    · refine (h.waiting email password ?_).same hemail hpassword
      rcases hcalls with hcalls | ⟨-, -, hcalls⟩
      · rwa [hcalls] at hmem
      · rw [hcalls] at hmem
        exact (List.mem_append.1 hmem).resolve_right (by simp)
    · have hnone := (yes_counts (P := P) (d := d) (f := f)).2
      rw [asking, he] at hnone
      cases hnone
  | dismissed => exact ⟨h.waiting, fun _ he => (by cases he), hmade⟩
  | cleared =>
    refine ⟨fun _ _ _ => .inr rfl, fun message halert => ?_, hmade⟩
    obtain ⟨email, password, hdeclined, -⟩ := hoffer message halert
    exact ⟨email, password, hdeclined, .inr rfl⟩
  | died => exact ⟨fun _ _ hcall => (by cases hcall), fun _ he => (by cases he), hmade⟩
  | untouched => exact ⟨h.waiting, hoffer, hmade⟩

/-- Where no field is edited while a sign-in is on its way, `Auth` is asked for no other account than
one that it did not know, and that the user was offered. -/
theorem created_as_offered (hs : Opened s₀) (h : Reaches (step (program P)) EditsAtRest s₀ s)
    (hmade : Made c s.log (s.app.form c) (.createUser email password)) :
    Declined c s.log email password := by
  have hinv : Offered c s.log (s.app.form c) := by
    clear hmade
    induction h with
    | refl =>
      rw [hs.log, hs.form c]
      refine ⟨fun _ _ hcall => (by cases hcall), fun _ he => (by cases he), fun _ _ hmade => ?_⟩
      rcases hmade with hcall | ⟨_, _, hev⟩
      · cases hcall
      · cases hev
    | tail _ hl hstep ih =>
      obtain ⟨ev, hlog, hlabel, hchange⟩ := change_of_transition (transition_of_step hstep) c
      rw [hlog]
      refine ih.change hchange fun text e hev email password hcall => ?_
      rcases hev with hev | hev
      · rw [hlabel _ _ hev] at hl
        cases hl _ hcall
      · rw [hlabel _ _ hev] at hl
        cases hl _ hcall
  exact hinv.made email password hmade

instance (s : LState) : DecidablePred (EditsAtRest s) := fun l => by
  unfold EditsAtRest
  split <;> infer_instance

theorem opened_start : Opened start := ⟨rfl, fun _ => rfl⟩

theorem signingUp_rests : (exec (step (program sdk)) EditsAtRest start signingUp).isSome = true := by
  decide +kernel

/-- Alice has an account. -/
def signedUp : LState := (exec (step (program sdk)) EditsAtRest start signingUp).get signingUp_rests

theorem signedUp_reached : Reaches (step (program sdk)) EditsAtRest start signedUp :=
  .of_exec (Option.some_get _).symm

theorem created_as_confirmed_signedUp :
    creations 0 signedUp.log (signedUp.app.form 0) ≤ signedUp.log.countP (did 0 confirms) ∧
      signedUp.log.countP (did 0 confirms) ≤ signedUp.log.countP (did 0 declines) ∧
        ∀ email password, Made 0 signedUp.log (signedUp.app.form 0) (.createUser email password) →
          Meant sdk 0 signedUp.log email password :=
  created_as_confirmed opened_start (signedUp_reached.mono fun _ _ _ => trivial) 0

theorem signingUp_asks :
    (exec (step (program sdk)) EditsAtRest start (signingUp.take 5)).isSome = true := by
  decide +kernel

theorem created_as_offered_signedUp :
    Declined 0 ((exec (step (program sdk)) EditsAtRest start (signingUp.take 5)).get
      signingUp_asks).log "alice@mail" "secret" :=
  created_as_offered opened_start (.of_exec (Option.some_get _).symm) (.inl (by decide +kernel))

/-- The sign-in is for Alice, and before its answer comes the e-mail is edited. -/
def signingUpAnother : List LLabel := signingUp.take 3 ++ [
  .press ⟨0, .editEmail "bob@mail"⟩ ⟨"d", 3⟩,
  .press ⟨0, .answered (.signIn "alice@mail" "secret") (.error NOT_FIND_THIS_USER)⟩ ⟨"e", 4⟩,
  .press ⟨0, .yes⟩ ⟨"f", 5⟩]

/-- The yes is to an account for Alice, and `Auth` is asked for one for Bob. -/
example : (exec (step (program sdk)) AnyStep start signingUpAnother).map
    (fun s => (s.app.form 0).calls) = some [.createUser "bob@mail" "secret"] := by
  decide +kernel

end FLChat.Accounts.LoginForm
