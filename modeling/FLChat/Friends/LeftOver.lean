import FLChat.Friends.Rejection

/-!
# What an accept leaves behind

The observers of an accept stay attached when it is done. A request that is sent later raises an
event at them, and this event removes the request although nobody accepted it. Until such an event
runs, whatever was written since the accept stays (`Spared`); when nothing is in flight any more, it
is gone (`requests_stay`).
-/

namespace FLChat.Friends

open Realtime

variable {email : UID → String} {G : Guard Loc Client Cb Unit App Action} {s₀ s₁ s s' : FState}
  {l : FLabel} {u v : UID}

/-- The callback of an inner observer that an accept between `u` and `v` has left. -/
def InnerOf (u v : UID) : Cb → Prop
  | .removeInner t f _ => f = u ∧ t = v ∨ f = v ∧ t = u
  | _ => False

instance : DecidablePred (InnerOf u v)
  | .removeInner t f _ => inferInstanceAs (Decidable (f = u ∧ t = v ∨ f = v ∧ t = u))
  | .requestSend .. | .recipientAdded | .userFriendAdded .. | .recipientFriendAdded .. |
    .removeOuter .. | .peerAdded _ | .entryAdded _ | .recordRead _ | .userRead .. => isFalse id

/-- An accept between `u` and `v` has run its removals, they are done, and it said so. -/
structure Completed (s : FState) (u v : UID) : Prop where
  ran : ∃ t e k, .ran t e ∈ s.log ∧ InnerOf u v t.cb ∧ t.input = .childAdded k
  removed : ∀ w ∈ s.writes, ∀ a b, a = u ∧ b = v ∨ a = v ∧ b = u →
    w.op ≠ .remove (friendRequestsWith a b)

/-- The steps of a run in which every write succeeds and no accept between `u` and `v` is
pressed. -/
def NoNewAccept (u v : UID) (s : FState) : FLabel → Prop
  | .press (.addUsertoFriendsBtnPressed c peer) _ =>
    ¬ (peer.uid = u ∧ c.uid = v ∨ peer.uid = v ∧ c.uid = u)
  | l => Succeeds s l

/-- Besides, no event of a left-over inner observer runs. -/
def Spares (u v : UID) (s : FState) : FLabel → Prop
  | .run i _ => ∀ t ∈ s.tasks[i]?, ¬ InnerOf u v t.cb
  | l => NoNewAccept u v s l

instance (s : FState) : DecidablePred (NoNewAccept u v s)
  | .press (.addUsertoFriendsBtnPressed c peer) _ =>
    inferInstanceAs (Decidable (¬ (peer.uid = u ∧ c.uid = v ∨ peer.uid = v ∧ c.uid = u)))
  | .press (.sendFrienRequestBtnPressed ..) _ | .press (.search ..) _ |
    .press (.didSelectItemAt ..) _ | .press (.profileLoaded ..) _ => isTrue trivial
  | .run i e => inferInstanceAs (Decidable (Succeeds s (.run i e)))
  | .commit i ok => inferInstanceAs (Decidable (Succeeds s (.commit i ok)))
  | .serve i ok => inferInstanceAs (Decidable (Succeeds s (.serve i ok)))
  | .die c => inferInstanceAs (Decidable (Succeeds s (.die c)))

instance (s : FState) : DecidablePred (Spares u v s)
  | .run i _ => inferInstanceAs (Decidable (∀ t ∈ s.tasks[i]?, ¬ InnerOf u v t.cb))
  | .press a e => inferInstanceAs (Decidable (NoNewAccept u v s (.press a e)))
  | .commit i ok => inferInstanceAs (Decidable (NoNewAccept u v s (.commit i ok)))
  | .serve i ok => inferInstanceAs (Decidable (NoNewAccept u v s (.serve i ok)))
  | .die c => inferInstanceAs (Decidable (NoNewAccept u v s (.die c)))

theorem NoNewAccept.succeeds (h : NoNewAccept u v s l) : Succeeds s l := by
  cases l with
  | press a e => trivial
  | run | commit | serve | die => exact h

theorem Spares.noNewAccept (h : Spares u v s l) : NoNewAccept u v s l := by
  cases l with
  | run => trivial
  | press | commit | serve | die => exact h

/-- The record and both entries of `k` were written. -/
def WrittenInFull (log : List FEvent) (u v : UID) (k : String) : Prop :=
  Written log (.friendRequest k) ∧ Written log (.userFriendRequest u v k) ∧
    Written log (.userFriendRequest v u k)

/-- The record and both entries of `k` are there. -/
def Stays (s : FState) (u v : UID) (k : String) : Prop :=
  .friendRequest k ∈ s.tree ∧ .userFriendRequest u v k ∈ s.tree ∧ .userFriendRequest v u k ∈ s.tree

/-! ## Until an event of a left-over observer runs -/

/-- A record whose entry was there before is not written any more. -/
theorem not_written_since (hs : Start s₀) (h₁ : Reaches (step (program email)) Proceeds s₀ s₁)
    (h : Reaches (step (program email)) Proceeds s₁ s) {a b : UID} {k : String}
    (hw : Written s₁.log (.userFriendRequest a b k)) :
    ¬ Written (since s₁ s) (.friendRequest k) := by
  refine h.invariant_of_reached (I := fun s => ¬ Written (since s₁ s) (.friendRequest k)) ?_
    fun {t l u} ht ih hl hstep hw' => ?_
  · rw [since_self]
    rintro ⟨c, d, hr⟩
    cases hr
  · obtain ⟨ev, hlog, hsince⟩ := since_step ht (transition_of_step hstep)
    rw [hsince] at hw'
    rcases hw'.cons_cases (transition_of_step hstep) hlog with hw' | ⟨i, w, d, hwait, -, hop, -⟩
    · exact ih hw'
    · exact recordSettled_of_reaches hs (h₁.trans ht) _
        (hw.mono (log_suffix ht).subset).answered rfl w (List.mem_of_getElem? hwait) _ d hop rfl rfl

/-- What holds since an accept between `u` and `v` has completed, until an event of an observer that
it has left runs: what was written since is there. -/
structure Spared (s₁ s : FState) (u v : UID) : Prop where
  ran : ∀ t e, .ran t e ∈ since s₁ s → ¬ InnerOf u v t.cb
  removed : ∀ w ∈ s.writes, ∀ a b, a = u ∧ b = v ∨ a = v ∧ b = u →
    w.op ≠ .remove (friendRequestsWith a b)
  entries : ∀ a b k, a = u ∧ b = v ∨ a = v ∧ b = u →
    Written (since s₁ s) (.userFriendRequest a b k) → .userFriendRequest a b k ∈ s.tree
  records : ∀ k, (∀ f t, Sent s.log f t k → f = u ∧ t = v ∨ f = v ∧ t = u) →
    Written (since s₁ s) (.friendRequest k) → .friendRequest k ∈ s.tree

theorem Spared.refl (hremoved : ∀ w ∈ s.writes, ∀ a b, a = u ∧ b = v ∨ a = v ∧ b = u →
    w.op ≠ .remove (friendRequestsWith a b)) : Spared s s u v where
  ran t e hev := by
    rw [since_self] at hev
    cases hev
  removed := hremoved
  entries a b k _ := by
    rw [since_self]
    rintro ⟨c, n, hr⟩
    cases hr
  records k _ := by
    rw [since_self]
    rintro ⟨c, n, hr⟩
    cases hr

/-- A left-over event about a request that was sent since the accept belongs to the pair. -/
theorem innerOf_of_ran (hf : Facts email G s) {c : Client} {t f : UID} {name k : String} {e : Env}
    (hran : .ran ⟨c, .removeInner t f name, .childAdded k⟩ e ∈ s.log)
    (hk : ∀ f t, Sent s.log f t k → f = u ∧ t = v ∨ f = v ∧ t = u) :
    InnerOf u v (.removeInner t f name) := by
  rcases hf.between_of_written (hf.observer_of_removeInner (.inr ⟨e, hran⟩)).2 with hsent | hsent
  · exact hk f t hsent
  · exact (hk t f hsent).symm.imp And.symm And.symm

theorem Spared.step (h : Spared s₁ s u v) (hs : Start s₀)
    (h₁ : Reaches (step (program email)) Proceeds s₀ s₁)
    (ht : Reaches (step (program email)) Proceeds s₁ s) (hl : Spares u v s l)
    (hstep : Transition (program email) s l s') : Spared s₁ s' u v := by
  have hf := facts_of_reaches hs (fun _ _ => id) (h₁.trans ht)
  obtain ⟨ev, hlog, hsince⟩ := since_step ht hstep
  have hran : ∀ t e, .ran t e ∈ since s₁ s' → ¬ InnerOf u v t.cb := by
    intro t e hev
    rw [hsince] at hev
    rcases List.mem_cons.1 hev with rfl | hev
    · cases hstep with
      | run _ htask =>
        cases (List.cons.inj hlog).1
        exact hl t htask
      | press | apply | reject | serve | die => cases (List.cons.inj hlog).1
    · exact h.ran t e hev
  refine ⟨hran, fun w hw a b hab hop => ?_, fun a b k hab hw => ?_, fun k hk hw => ?_⟩
  · -- only an event of an inner observer issues a removal
    rcases mem_writes_step hw hstep with hw | ⟨a', e, app, cmds, -, hact, hcmd, -⟩ |
      ⟨i, t, e, app, cmds, -, -, hrun, hcmd, rfl⟩
    · exact h.removed w hw a b hab hop
    · rw [hop] at hcmd
      generalize w.completion = cb at hcmd
      cases issues_of_act hact hcmd
    · have hnot := hran t e (hsince ▸ List.mem_cons.2 (.inl (List.cons.inj hlog).1))
      obtain ⟨c, cb, input⟩ := t
      rw [hop] at hcmd
      generalize w.completion = cb' at hcmd
      generalize hp : friendRequestsWith a b = p at hcmd
      cases issues_of_run hrun hcmd with
      | removeRequest => simp [friendRequestsWith] at hp
      | removeIndex =>
        obtain ⟨rfl, rfl⟩ := friendRequestsWith_inj hp
        exact hnot (hab.symm.imp And.symm And.symm)
      | removeSenderIndex =>
        obtain ⟨rfl, rfl⟩ := friendRequestsWith_inj hp
        exact hnot hab
  · rw [hsince] at hw
    rcases hw.cons_cases hstep hlog with hw | ⟨i, w, n, -, -, hop, rfl⟩
    · rcases mem_tree_step (h.entries a b k hab hw) hstep with hmem |
        ⟨i, w, p, hwait, -, hop, hp, -⟩
      · exact hmem
      · have hmem := List.mem_of_getElem? hwait
        have hi := hf.origin.writes w hmem
        rw [hop] at hi
        obtain ⟨rfl, -⟩ := Facts.removeIndex_issued hi hp
        exact absurd hop (h.removed w hmem a b hab)
    · rw [State.applied_tree, hop]
      exact Tree.mem_update.2 (.inl rfl)
  · have hk : ∀ f t, Sent s.log f t k → f = u ∧ t = v ∨ f = v ∧ t = u := fun f t hsent =>
      hk f t (hsent.mono hstep.log_mono)
    rw [hsince] at hw
    rcases hw.cons_cases hstep hlog with hw | ⟨i, w, d, -, -, hop, rfl⟩
    · rcases mem_tree_step (h.records k hk hw) hstep with hmem | ⟨i, w, p, hwait, -, hop, hp, -⟩
      · exact hmem
      · have hi := hf.origin.writes w (List.mem_of_getElem? hwait)
        rw [hop] at hi
        obtain ⟨t, f, name, e, hev⟩ := Facts.removeRequest_issued hi hp
        have hinner := innerOf_of_ran hf hev hk
        rw [← since_append (log_suffix ht)] at hev
        rcases List.mem_append.1 hev with hev | hev
        · exact absurd hinner (h.ran _ _ hev)
        · -- an older event is about an older request
          have hf₁ := facts_of_reaches hs (fun _ _ => id) h₁
          exact absurd hw (not_written_since hs h₁ ht (hf₁.observer_of_removeInner (.inr ⟨e, hev⟩)).2)
    · rw [State.applied_tree, hop]
      exact Tree.mem_update.2 (.inl rfl)

theorem Spared.of_reaches (hs : Start s₀) (h₁ : Reaches (Realtime.step (program email)) Proceeds s₀ s₁)
    (hdone : Completed s₁ u v) (h : Reaches (Realtime.step (program email)) (Spares u v) s₁ s) :
    Spared s₁ s u v :=
  h.invariant_of_reached (I := fun s => Spared s₁ s u v) (.refl hdone.removed)
    fun ht ih hl hstep =>
      ih.step hs h₁ (ht.mono fun _ _ hl => hl.noNewAccept.succeeds.proceeds) hl
        (transition_of_step hstep)

/-! ## When nothing is in flight any more -/

/-- An accept that has completed was pressed. -/
theorem Completed.accepted (h : Completed s u v) (hf : Facts email G s) :
    ∃ a, Accepted s.log u v a ∨ Accepted s.log v u a := by
  obtain ⟨⟨c, cb, input⟩, e, k, hran, hinner, rfl⟩ := h.ran
  cases cb with
  | removeInner t f name =>
    obtain ⟨a, hacc⟩ := hf.accepted_of_removeInner (.inr ⟨e, hran⟩)
    rcases hinner with ⟨rfl, rfl⟩ | ⟨rfl, rfl⟩
    · exact ⟨a, .inl hacc⟩
    · exact ⟨a, .inr hacc⟩
  | _ => exact hinner.elim

/-- After an accept between `u` and `v` has completed, a request that is written between them stays as
long as no event of an observer that the accept has left runs. But when nothing is in flight any
more, it is gone, although no other accept was pressed. -/
theorem requests_stay (hs : Start s₀) (h₁ : Reaches (step (program email)) Succeeds s₀ s₁)
    (hdone : Completed s₁ u v) :
    (∀ s, Reaches (step (program email)) (Spares u v) s₁ s →
      ∀ k, WrittenInFull (since s₁ s) u v k → Stays s u v k) ∧
    ∀ s, Reaches (step (program email)) (NoNewAccept u v) s₁ s → s.Quiescent →
      ∀ k, WrittenInFull (since s₁ s) u v k → .friendRequest k ∉ s.tree := by
  have h₁ := h₁.mono fun _ _ => Succeeds.proceeds
  constructor
  · rintro s h k ⟨hrecord, hentry, hentry'⟩
    have hspared := Spared.of_reaches hs h₁ hdone h
    have h := h.mono fun _ _ hl => hl.noNewAccept.succeeds.proceeds
    have hf := facts_of_reaches hs (fun _ _ => id) (h₁.trans h)
    have hbetween : Between s.log u v k := hf.between_of_written (hentry.mono fun ev hev => by
      rw [← since_append (log_suffix h)]
      exact List.mem_append_left _ hev)
    exact ⟨hspared.records k (fun f t hsent => hf.between_unique (.inl hsent) hbetween) hrecord,
      hspared.entries u v k (.inl ⟨rfl, rfl⟩) hentry, hspared.entries v u k (.inr ⟨rfl, rfl⟩) hentry'⟩
  · rintro s h hq k ⟨-, hentry, -⟩
    have h := h.mono fun _ _ hl => hl.succeeds.proceeds
    have hrun := h₁.trans h
    have hf := facts_of_reaches hs (fun _ _ => id) hrun
    have hlog := (log_suffix h).subset
    have hbetween : Between s.log u v k := hf.between_of_written (hentry.mono fun ev hev => by
      rw [← since_append (log_suffix h)]
      exact List.mem_append_left _ hev)
    have hkept := keptOrTold_of_reaches hs (fun _ _ => id) hrun
    have hclear := recordCleared_of_reaches hs (fun _ _ => id) hrun
    obtain ⟨a, hacc | hacc⟩ := hdone.accepted (facts_of_reaches hs (fun _ _ => id) h₁)
    · exact record_gone hf hq hkept hclear (hacc.mono fun _ hev => hlog hev) hbetween
    · exact record_gone hf hq hkept hclear (hacc.mono fun _ hev => hlog hev) hbetween.symm

/-! ## Alice asks again -/

theorem accept_runs :
    (exec (step (program mail)) Succeeds asked (acceptAlice :: accepting true)).isSome = true := by
  decide +kernel

/-- Bob has accepted Alice. -/
def befriended : FState :=
  (exec (step (program mail)) Succeeds asked (acceptAlice :: accepting true)).get accept_runs

theorem befriended_reached : Reaches (step (program mail)) Succeeds start befriended :=
  asked_reached.trans (.of_exec (Option.some_get _).symm)

theorem befriended_completed : Completed befriended "alice" "bob" where
  ran := ⟨⟨bob, .removeInner "bob" "alice" "alice", .childAdded "k"⟩, ⟨"f4", 14⟩, "k",
    List.mem_of_getElem? (i := 4) rfl, .inl ⟨rfl, rfl⟩, rfl⟩
  removed w hw := by
    have hwrites : befriended.writes = [] := rfl
    rw [hwrites] at hw
    cases hw

/-- Alice sends Bob another request. The event that it raises at the observer left by the accept
waits. -/
def resending : List FLabel := [
  .press (.sendFrienRequestBtnPressed alice (found "bob")) ⟨"k2", 16⟩, .commit 0 true,
  .commit 0 true, .run 1 ⟨"a3", 17⟩, .commit 0 true]

/-- Everything is delivered, and nobody presses anything. -/
def settling : List FLabel := [
  .run 0 ⟨"b5", 18⟩, .commit 0 true, .commit 0 true, .commit 0 true, .run 0 ⟨"b6", 19⟩,
  .serve 0 true, .run 0 ⟨"b7", 20⟩, .serve 0 true, .run 0 ⟨"b8", 21⟩, .serve 0 true,
  .run 0 ⟨"a4", 22⟩, .run 0 ⟨"b9", 23⟩, .serve 0 true, .run 0 ⟨"b10", 24⟩]

theorem resending_runs :
    (exec (step (program mail)) (Spares "alice" "bob") befriended resending).isSome = true := by
  decide +kernel

def resent : FState :=
  (exec (step (program mail)) (Spares "alice" "bob") befriended resending).get resending_runs

theorem resent_reached : Reaches (step (program mail)) (Spares "alice" "bob") befriended resent :=
  .of_exec (Option.some_get _).symm

theorem settling_runs :
    (exec (step (program mail)) (NoNewAccept "alice" "bob") resent settling).isSome = true := by
  decide +kernel

def settled : FState :=
  (exec (step (program mail)) (NoNewAccept "alice" "bob") resent settling).get settling_runs

theorem settled_reached :
    Reaches (step (program mail)) (NoNewAccept "alice" "bob") befriended settled :=
  (resent_reached.mono fun _ _ => Spares.noNewAccept).trans (.of_exec (Option.some_get _).symm)

theorem resent_written : WrittenInFull (since befriended resent) "alice" "bob" "k2" := by
  unfold WrittenInFull
  decide +kernel

theorem settled_written : WrittenInFull (since befriended settled) "alice" "bob" "k2" := by
  unfold WrittenInFull
  decide +kernel

theorem requests_stay_resent :
    Stays resent "alice" "bob" "k2" ∧ .friendRequest "k2" ∉ settled.tree :=
  have h := requests_stay start_start befriended_reached befriended_completed
  ⟨h.1 resent resent_reached "k2" resent_written,
    h.2 settled settled_reached ⟨rfl, rfl, rfl⟩ "k2" settled_written⟩

/-- A request that is written after an accept between the two has completed stays until a new one is
pressed. -/
def RequestsStay (email : UID → String) : Prop :=
  ∀ s₀ s₁ s u v k, Start s₀ → Reaches (step (program email)) Succeeds s₀ s₁ → Completed s₁ u v →
    Reaches (step (program email)) (NoNewAccept u v) s₁ s → WrittenInFull (since s₁ s) u v k →
    Stays s u v k

/-- Alice's second request is removed by what Bob's accept of her first one has left. -/
theorem not_requestsStay : ¬ RequestsStay mail := by
  intro h
  have hrecord := (h start befriended settled "alice" "bob" "k2" start_start befriended_reached
    befriended_completed settled_reached settled_written).1
  revert hrecord
  decide +kernel

end FLChat.Friends
