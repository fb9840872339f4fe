import FLChat.Friends.Profiles
import FLChat.Realtime.Counting
import FLChat.Realtime.Pending

/-!
# The calls of the lists

What the three list functions have in common. A callback of a call reads records and appends what it
shows of their users to the array of that call (`userRead_cases`), so the array holds what the events
since the call was opened delivered to it (`arrayUsers_of_delivered`). A call is opened by one press,
and before that nothing is under way for it (`callsOpened_of_reaches`).
-/

namespace FLChat.Friends

open Realtime

variable {email : UID → String} {s₀ s₁ s : FState} {c : Client} {call : Call}

/-! ## What a callback shows -/

/-- How a list shows a user. -/
def FriendList.entry (list : FriendList) (user : UserParams) : Users :=
  match list with
  | .sent => { user.users with userId := none }
  | .friends | .incoming => user.users

/-- What a call shows of a user that it reads. -/
def shown (email : UID → String) (call : Call) (user : Option UserParams) : List Users :=
  ((user.toList).filter fun user =>
    matchesQuery call.query user.email (email call.client.uid)).map call.list.entry

/-- The user of a record that was read. -/
def userOf : (l : Loc) → Option (Val l) → Side → Option UserParams
  | .friends _, dict, side => dict.map fun d => FriendDict.side d side
  | .friendRequest _, dict, side => dict.map fun d => RequestDict.side d side
  | .userFriendRequest .., _, _ | .userFriends .., _, _ => none

/-- The side of a record that was read. -/
def sideOf (c : Client) (list : FriendList) : (l : Loc) → Option (Val l) → Option Side
  | .friends _, dict => shownSide c list dict
  | .friendRequest _, _ => shownSide c list none
  | .userFriendRequest .., _ | .userFriends .., _ => none

theorem handle_recordRead (email : UID → String) (c : Client) (call : Call) (l : Loc)
    (v : Option (Val l)) (app : App) : handle email c (.recordRead call) (.value l v) app =
      (app, (sideOf c call.list l v).toList.map fun side =>
        .ask (.value l (.userRead call side))) := by
  cases l <;> rfl

theorem handle_userRead (email : UID → String) (c : Client) (call : Call) (side : Side) (l : Loc)
    (v : Option (Val l)) (app : App) : handle email c (.userRead call side) (.value l v) app =
      (userRead email call (userOf l v side) app, []) := by
  cases l <;> rfl

/-- A user that is read is delivered, or nothing changes. -/
theorem userRead_cases (email : UID → String) (call : Call) (user : Option UserParams) (app : App) :
    shown email call user = [] ∧ userRead email call user app = app ∨
      ∃ users, shown email call user = [users] ∧
        userRead email call user app = app.deliver call users := by
  obtain ⟨c, list, query, id⟩ := call
  cases user with
  | none => exact .inl ⟨rfl, rfl⟩
  | some user =>
    by_cases hmatch : matchesQuery query user.email (email c.uid) = true
    · refine .inr ⟨list.entry user, by simp [shown, hmatch], ?_⟩
      simp only [userRead, hmatch, if_true]
      cases list <;> rfl
    · exact .inl ⟨by simp [shown, hmatch], by simp [userRead, hmatch]⟩

theorem arrayUsers_userRead_eq (call' : Call) (user : Option UserParams) (app : App) :
    (userRead email call' user app).arrayUsers call = app.arrayUsers call ++
      if call' = call then shown email call user else [] := by
  by_cases hc : call' = call
  · subst hc
    rw [if_pos rfl]
    rcases userRead_cases email call' user app with ⟨hshown, hread⟩ | ⟨users, hshown, hread⟩
    · rw [hshown, hread, List.append_nil]
    · rw [hshown, hread]
      exact if_pos rfl
  · rw [if_neg hc, List.append_nil]
    rcases userRead_cases email call' user app with ⟨-, hread⟩ | ⟨users, -, hread⟩
    · rw [hread]
    · rw [hread]
      exact if_neg fun he => hc he.symm

/-- What an event delivers to the call, with the key of the record. -/
def deliveredBy (email : UID → String) (call : Call) : FEvent → List (String × Users)
  | .ran ⟨_, .userRead call' side, .value l v⟩ _ =>
    if call' = call then (shown email call (userOf l v side)).map fun users => (l.key, users) else []
  | _ => []

/-- What was delivered to the call, in this order. -/
def delivered (email : UID → String) (call : Call) (log : List FEvent) : List (String × Users) :=
  log.reverse.flatMap (deliveredBy email call)

theorem delivered_cons (ev : FEvent) (log : List FEvent) :
    delivered email call (ev :: log) = delivered email call log ++ deliveredBy email call ev := by
  simp [delivered]

/-- A callback appends what its event delivers. -/
theorem arrayUsers_handle_eq (cb : Cb) (input : Input Loc) (e : Env) (app : App) :
    (handle email c cb input app).1.arrayUsers call = app.arrayUsers call ++
      (deliveredBy email call (.ran ⟨c, cb, input⟩ e)).map Prod.snd := by
  cases cb with
  | userRead call' side =>
    cases input with
    | value l v =>
      rw [handle_userRead, arrayUsers_userRead_eq]
      simp only [deliveredBy]
      split <;> simp
    | acked | childAdded | stored | url => exact (List.append_nil _).symm
  | recordRead call' =>
    cases input with
    | value l v =>
      rw [handle_recordRead]
      exact (List.append_nil _).symm
    | acked | childAdded | stored | url => exact (List.append_nil _).symm
  | requestSend | recipientAdded | userFriendAdded | recipientFriendAdded | removeOuter |
    removeInner | peerAdded | entryAdded => cases input <;> exact (List.append_nil _).symm

/-- A press shows nothing. -/
theorem arrayUsers_act {app app' : App} {a : Action} {e : Env} {cmds : List Command}
    (hact : act email a e app = some (c, app', cmds)) : app'.arrayUsers = app.arrayUsers := by
  cases pressed_of_act hact <;> rfl

/-- As long as its process lives, the array of a call holds what was delivered to it. -/
theorem arrayUsers_of_delivered {ok : FState → FLabel → Prop}
    (hlives : ∀ s, ¬ ok s (.die call.client)) (hnil : s₁.app.arrayUsers call = [])
    (h : Reaches (step (program email)) ok s₁ s) :
    s.app.arrayUsers call = (delivered email call (since s₁ s)).map Prod.snd := by
  refine h.invariant_of_reached (I := fun s => s.app.arrayUsers call =
    (delivered email call (since s₁ s)).map Prod.snd) ?_ fun {t l u} ht ih hl hstep => ?_
  · rw [since_self, hnil]
    rfl
  · have hsuffix := log_suffix ht
    cases transition_of_step hstep with
    | press _ hact =>
      rw [since_cons hsuffix rfl, delivered_cons, State.pressed_app, arrayUsers_act hact, ih]
      exact (congrArg (List.map Prod.snd) (List.append_nil _)).symm
    | @run i e task app cmds _ _ hrun =>
      have happ : (handle email task.client task.cb task.input t.app).1 = app :=
        congrArg Prod.fst hrun
      rw [since_cons hsuffix rfl, delivered_cons, State.ran_app, ← happ,
        arrayUsers_handle_eq _ _ e, ih, List.map_append]
    | apply | reject | serve =>
      rw [since_cons hsuffix rfl, delivered_cons]
      exact ih.trans (congrArg (List.map Prod.snd) (List.append_nil _)).symm
    | @die c =>
      rw [since_cons hsuffix rfl, delivered_cons]
      have hne : call.client ≠ c := fun he => hlives t (he ▸ hl)
      refine (if_neg hne).trans ?_
      exact ih.trans (congrArg (List.map Prod.snd) (List.append_nil _)).symm

/-! ## The press of a call -/

/-- The press that opens the call. -/
def opens (call : Call) : FEvent → ℕ
  | .pressed (.search c list query) e => if ⟨c, list, query, e.key⟩ = call then 1 else 0
  | _ => 0

theorem opens_le_one (h : KeysFresh s) (call : Call) : weigh (opens call) s.log ≤ 1 := by
  refine weigh_le_one (k := call.id) h.nodup (fun ev _ => ?_) fun ev _ hne => ?_
  · unfold opens
    split
    · split <;> simp
    · simp
  · unfold opens at hne
    split at hne
    · split at hne
      · next hc => rw [← hc]; rfl
      · exact absurd rfl hne
    · exact absurd rfl hne

/-- The call of a callback. -/
def Cb.call? : Cb → Option Call
  | .peerAdded call | .entryAdded call | .recordRead call | .userRead call _ => some call
  | _ => none

/-- The calls of the callbacks that may still run or have run, and those that have delivered, were
opened. -/
structure CallsOpened (s : FState) : Prop where
  pending : ∀ c, ∀ cb ∈ s.pending c, ∀ call ∈ cb.call?, 0 < weigh (opens call) s.log
  ran : ∀ t e, .ran t e ∈ s.log → ∀ call ∈ t.cb.call?, 0 < weigh (opens call) s.log
  arrayUsers : ∀ call, s.app.arrayUsers call ≠ [] → 0 < weigh (opens call) s.log

/-- A callback delivers to its own call. -/
theorem call?_of_deliveredBy {t : Task Loc Client Cb} {e : Env}
    (hne : deliveredBy email call (.ran t e) ≠ []) : t.cb.call? = some call := by
  unfold deliveredBy at hne
  split at hne
  · split at hne
    · next he hc =>
      cases he
      exact congrArg some hc
    · exact absurd rfl hne
  · exact absurd rfl hne

theorem call?_of_issues {ev : FEvent} {app : App} {cmd : Command} {cb : Cb}
    (hi : Issues email ev app c cmd) (hcb : cmd.completion = some cb) (hcall : cb.call? = some call) :
    opens call ev = 1 ∨ ∃ cb' input e, ev = .ran ⟨c, cb', input⟩ e ∧ cb'.call? = some call := by
  cases hi with
  | searchFriends | searchRequests =>
    cases hcb
    cases hcall
    exact .inl (if_pos rfl)
  | peerEntries | readRecord | readFriend | readRequest =>
    cases hcb
    exact .inr ⟨_, _, _, rfl, hcall⟩
  | request | friend | removeRequest | removeIndex | removeSenderIndex => cases hcb
  | requestIndex | recipientIndex | friendIndex | recipientFriendIndex | outer | inner =>
    cases hcb
    cases hcall

theorem callsOpened_of_reaches {ok : FState → FLabel → Prop} (hs : Start s₀)
    (h : Reaches (step (program email)) ok s₀ s) : CallsOpened s := by
  have grow : ∀ (ev : FEvent) (log : List FEvent) (call : Call), 0 < weigh (opens call) log →
      0 < weigh (opens call) (ev :: log) := fun ev log call hpos => by
    rw [weigh_cons]
    omega
  refine h.invariant ⟨fun c cb hcb => ?_, fun t e hev => ?_, fun call hne => ?_⟩
    fun {t l u} ih hl hstep => ?_
  · simp [State.pending, hs.initial.writes, hs.initial.asks, hs.initial.tasks, hs.initial.childObs,
      hs.initial.valueObs] at hcb
  · simp [hs.initial.log] at hev
  · exact absurd (hs.app.arrayUsers call) hne
  have hs' := transition_of_step hstep
  refine ⟨pending_step (Q := fun log cb => ∀ call ∈ cb.call?, 0 < weigh (opens call) log)
    (fun ev log cb hq call hcall => grow ev log call (hq call hcall)) ?_ ?_ ih.pending hs', ?_, ?_⟩
  · intro a e app c app' cmds log hact cb hcb call hcall
    obtain ⟨cmd, hcmd, hcb⟩ := List.mem_map.1 hcb
    rw [weigh_cons]
    rcases call?_of_issues (issues_of_act hact hcmd) hcb hcall with hone | ⟨_, _, _, he, -⟩
    · omega
    · cases he
  · intro c e cb input app log hq cb' hcb' call hcall
    obtain ⟨cmd, hcmd, hcb'⟩ := List.mem_map.1 hcb'
    have hi : Issues email (.ran ⟨c, cb, input⟩ e) app c cmd := issues_of_handle hcmd
    rcases call?_of_issues hi hcb' hcall with hone | ⟨_, _, _, he, hcall'⟩
    · cases hone
    · cases he
      exact hq call hcall'
  · intro task e hev call hcall
    cases hs' with
    | @run i e' task' app cmds _ ht hrun =>
      refine grow _ _ _ ?_
      rcases List.mem_cons.1 hev with hev | hev
      · cases hev
        exact ih.pending _ _ (mem_pending_of_task (List.mem_of_getElem? ht)) call hcall
      · exact ih.ran task e hev call hcall
    | press | apply | reject | serve | die =>
      exact grow _ _ _ (ih.ran task e ((List.mem_cons.1 hev).resolve_left (by simp)) call hcall)
  · intro call hne
    cases hs' with
    | press _ hact =>
      rw [State.pressed_app, arrayUsers_act hact] at hne
      exact grow _ _ _ (ih.arrayUsers call hne)
    | @run i e task app cmds _ ht hrun =>
      have happ : (handle email task.client task.cb task.input t.app).1 = app :=
        congrArg Prod.fst hrun
      rw [State.ran_app, ← happ, arrayUsers_handle_eq _ _ e] at hne
      refine grow _ _ _ ?_
      by_cases hsame : t.app.arrayUsers call = []
      · have hdelivers : deliveredBy email call (.ran task e) ≠ [] := fun hnil => hne (by
          rw [hsame, hnil]
          rfl)
        exact ih.pending _ _ (mem_pending_of_task (List.mem_of_getElem? ht)) call
          (call?_of_deliveredBy hdelivers)
      · exact ih.arrayUsers call hsame
    | apply | reject | serve => exact grow _ _ _ (ih.arrayUsers call hne)
    | @die c =>
      refine grow _ _ _ (ih.arrayUsers call fun hnil => hne ?_)
      simp only [State.died_app, program_die, die]
      split
      · rfl
      · exact hnil


end FLChat.Friends
