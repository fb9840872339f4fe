import FLChat.Friends.LeftOver
import FLChat.Realtime.LocalView

/-!
# The two sides of the index of requests

A send writes its record and the two entries one after the other, and a removal takes both index
subtrees as they are then. One that falls between the two entries of a send leaves the second entry
alone with nothing to belong to. An entry that is written while a removal waits on a device is
hidden from the observers there, and then the removal takes it, so that its record is left alone.
Where neither happens (`Tidy`, `Unshadowed`), the record and the entries of every key agree when
nothing is in flight (`index_agrees`).
-/

namespace FLChat.Friends

open Realtime

variable {email : UID → String} {G : Guard Loc Client Cb Unit App Action} {s₀ s s' : FState}
  {l : FLabel} {u v : UID}

/-- The record of `k` and its entries between `u` and `v` are there together or not at all. -/
def IndexAgrees (s : FState) (u v : UID) (k : String) : Prop :=
  (Loc.userFriendRequest u v k ∈ s.tree ↔ Loc.userFriendRequest v u k ∈ s.tree) ∧
    (Loc.userFriendRequest u v k ∈ s.tree ↔ ∃ d, s.tree.lookup (.friendRequest k) = some d ∧
      (d.fromId = u ∧ d.toId = v ∨ d.fromId = v ∧ d.toId = u))

/-- No request between `u` and `v` has one entry written and not the other. -/
def Indexed (log : List FEvent) (u v : UID) : Prop :=
  ∀ k, Written log (.userFriendRequest u v k) ↔ Written log (.userFriendRequest v u k)

/-- The key of the entry of `u` with `v` that the event says was written. -/
def entryKey (u v : UID) : FEvent → Option String
  | .resolved _ (.update (.userFriendRequest a b k) _) true => if a = u ∧ b = v then some k else none
  | _ => none

theorem mem_entryKeys {log : List FEvent} {k : String} :
    k ∈ log.filterMap (entryKey u v) ↔ Written log (.userFriendRequest u v k) := by
  rw [List.mem_filterMap]
  constructor
  · rintro ⟨ev, hev, hk⟩
    unfold entryKey at hk
    split at hk
    · next c a b k' n =>
      split at hk
      · next hab =>
        obtain ⟨rfl, rfl⟩ := hab
        cases hk
        exact ⟨c, n, hev⟩
      · cases hk
    · cases hk
  · rintro ⟨c, n, hr⟩
    exact ⟨_, hr, if_pos ⟨rfl, rfl⟩⟩

instance (log : List FEvent) : Decidable (Indexed log u v) :=
  decidable_of_iff
    ((∀ k ∈ log.filterMap (entryKey u v), Written log (.userFriendRequest v u k)) ∧
      ∀ k ∈ log.filterMap (entryKey v u), Written log (.userFriendRequest u v k)) <| by
    simp only [mem_entryKeys]
    exact ⟨fun h k => ⟨h.1 k, h.2 k⟩, fun h => ⟨fun k => (h k).1, fun k => (h k).2⟩⟩

/-! ## What the observers of an accept see -/

/-- The callback of an observer that an accept between `u` and `v` has attached. -/
def Clears (u v : UID) : Cb → Prop
  | .removeOuter t f _ | .removeInner t f _ => f = u ∧ t = v ∨ f = v ∧ t = u
  | _ => False

/-- The key of the request between `u` and `v` of which the write is an index entry. -/
def entryBetween (u v : UID) : Op Loc → Option String
  | .update (.userFriendRequest a b k) _ => if a = u ∧ b = v ∨ a = v ∧ b = u then some k else none
  | _ => none

/-- An event about the child `k`, or no event. -/
def About (k : String) : Input Loc → Prop
  | .childAdded k' => k' = k
  | _ => True

/-- When the write at `i` is applied, an entry of the request `k`, the observers that an accept
between `u` and `v` has attached on `c` are ready for it: nothing that waits on `c` reaches the
observed path, and no event about another request waits there. -/
structure Ready (u v : UID) (s : FState) (i : ℕ) (k : String) (o : ChildObserver Client Cb) :
    Prop where
  undisturbed : ∀ w ∈ s.writes.eraseIdx i, w.client = o.client → w.op.LeavesAlone o.path
  told : ∀ t ∈ s.tasks, t.client = o.client → Clears u v t.cb → About k t.input

/-- The steps of a run in which every write succeeds, and an index entry of a request between `u`
and `v` is written only when the observers that accepts between the two have attached see it. -/
def Unshadowed (u v : UID) (s : FState) : FLabel → Prop
  | .commit i ok => ok = true ∧ ∀ w ∈ s.writes[i]?, ∀ k ∈ entryBetween u v w.op,
      ∀ o ∈ s.childObs, Clears u v o.cb → Ready u v s i k o
  | l => Succeeds s l

instance : DecidablePred (Clears u v)
  | .removeOuter t f _ | .removeInner t f _ =>
    inferInstanceAs (Decidable (f = u ∧ t = v ∨ f = v ∧ t = u))
  | .requestSend .. | .recipientAdded | .userFriendAdded .. | .recipientFriendAdded .. |
    .peerAdded _ | .entryAdded _ | .recordRead _ | .userRead .. => isFalse id

instance {k : String} : DecidablePred (About k)
  | .childAdded k' => inferInstanceAs (Decidable (k' = k))
  | .acked _ | .value .. | .stored _ | .url _ => isTrue trivial

instance {i : ℕ} {k : String} {o : ChildObserver Client Cb} : Decidable (Ready u v s i k o) :=
  decidable_of_iff
    ((∀ w ∈ s.writes.eraseIdx i, w.client = o.client → w.op.LeavesAlone o.path) ∧
      ∀ t ∈ s.tasks, t.client = o.client → Clears u v t.cb → About k t.input)
    ⟨fun h => ⟨h.1, h.2⟩, fun h => ⟨h.undisturbed, h.told⟩⟩

instance (s : FState) : DecidablePred (Unshadowed u v s)
  | .commit i ok => inferInstanceAs
    (Decidable (ok = true ∧ ∀ w ∈ s.writes[i]?, ∀ k ∈ entryBetween u v w.op,
      ∀ o ∈ s.childObs, Clears u v o.cb → Ready u v s i k o))
  | .press a e => inferInstanceAs (Decidable (Succeeds s (.press a e)))
  | .run i e => inferInstanceAs (Decidable (Succeeds s (.run i e)))
  | .serve i ok => inferInstanceAs (Decidable (Succeeds s (.serve i ok)))
  | .die c => inferInstanceAs (Decidable (Succeeds s (.die c)))

theorem Unshadowed.succeeds (h : Unshadowed u v s l) : Succeeds s l := by
  cases l with
  | commit => exact h.1
  | press | run | serve | die => exact h

/-- The observers that accepts between `u` and `v` have attached on other devices are told of an
entry by the machine exactly when the SDK tells them. -/
theorem Unshadowed.appears_iff {i : ℕ} {w : Write Loc Client Cb} {k k' : String}
    {o : ChildObserver Client Cb} (h : Unshadowed u v s (.commit i true))
    (hw : s.writes[i]? = some w) (hk : k ∈ entryBetween u v w.op) (ho : o ∈ s.childObs)
    (hclears : Clears u v o.cb) (hne : w.client ≠ o.client) :
    s.appears (s.applied i w) o k' ↔ s.adds o k' w.op := by
  have hready := h.2 w hw k hk o ho hclears
  refine appears_applied_iff (fun w' hw' hc => ?_) hready.undisturbed
  rcases mem_eraseIdx_or hw hw' with rfl | hw'
  · exact absurd hc hne
  · exact hready.undisturbed w' hw' hc

/-! ## Where no removal falls between two entries -/

/-- The write removes the requests between `u` and `v` from one side of the index. -/
def RemovesIndex (u v : UID) : Op Loc → Prop
  | .remove p => p = friendRequestsWith u v ∨ p = friendRequestsWith v u
  | .update .. => False

/-- Besides, no removal falls between the two entries of a request between `u` and `v`. -/
def Tidy (u v : UID) (s : FState) : FLabel → Prop
  | .commit i ok => Unshadowed u v s (.commit i ok) ∧
      ∀ w ∈ s.writes[i]?, RemovesIndex u v w.op → Indexed s.log u v
  | l => Succeeds s l

instance : DecidablePred (RemovesIndex u v)
  | .remove p =>
    inferInstanceAs (Decidable (p = friendRequestsWith u v ∨ p = friendRequestsWith v u))
  | .update .. => isFalse id

instance (s : FState) : DecidablePred (Tidy u v s)
  | .commit i ok => inferInstanceAs
    (Decidable (Unshadowed u v s (.commit i ok) ∧
      ∀ w ∈ s.writes[i]?, RemovesIndex u v w.op → Indexed s.log u v))
  | .press a e => inferInstanceAs (Decidable (Succeeds s (.press a e)))
  | .run i e => inferInstanceAs (Decidable (Succeeds s (.run i e)))
  | .serve i ok => inferInstanceAs (Decidable (Succeeds s (.serve i ok)))
  | .die c => inferInstanceAs (Decidable (Succeeds s (.die c)))

theorem Tidy.unshadowed (h : Tidy u v s l) : Unshadowed u v s l := by
  cases l with
  | commit => exact h.1
  | press | run | serve | die => exact h

theorem Tidy.succeeds (h : Tidy u v s l) : Succeeds s l := h.unshadowed.succeeds

/-- Where an inner observer of the pair has run for `k`, each entry of `k` is gone for good or waits
to be removed. -/
def EntriesCleared (u v : UID) (s : FState) : Prop :=
  ∀ c t f name k e, .ran ⟨c, .removeInner t f name, .childAdded k⟩ e ∈ s.log →
    (f = u ∧ t = v ∨ f = v ∧ t = u) → ∀ a b, a = u ∧ b = v ∨ a = v ∧ b = u →
    (Written s.log (.userFriendRequest a b k) ∧ Loc.userFriendRequest a b k ∉ s.tree) ∨
      ∃ w ∈ s.writes, w.op = .remove (friendRequestsWith a b)

theorem EntriesCleared.step (h : EntriesCleared u v s) (hne : u ≠ v) (hs : Start s₀)
    (ht : Reaches (Realtime.step (program email)) (Tidy u v) s₀ s) (hl : Tidy u v s l)
    (hstep : Realtime.step (program email) s l = some s') : EntriesCleared u v s' := by
  have hrun := ht.mono fun _ _ hl => hl.succeeds.proceeds
  have hf := facts_of_reaches hs (fun _ _ => id) hrun
  have hf' := facts_of_reaches hs (fun _ _ => id) (hrun.tail hl.succeeds.proceeds hstep)
  have hs' := transition_of_step hstep
  intro c t f name k e hev hft a b hab
  have old : .ran ⟨c, .removeInner t f name, .childAdded k⟩ e ∈ s.log →
      (Written s'.log (.userFriendRequest a b k) ∧ Loc.userFriendRequest a b k ∉ s'.tree) ∨
        ∃ w ∈ s'.writes, w.op = .remove (friendRequestsWith a b) := by
    intro hev
    rcases h c t f name k e hev hft a b hab with ⟨hw, hgone⟩ | ⟨w, hw, hop⟩
    · -- an entry that was written is not written again
      refine .inl ⟨hw.mono hs'.log_mono, not_mem_tree_step hgone (fun w hwait n => ?_) hs'⟩
      obtain ⟨c', n', hr⟩ := hw
      have htwo : TwoSided s.log (.userFriendRequest a b k) := by
        rintro rfl
        rcases hab with ⟨rfl, rfl⟩ | ⟨rfl, rfl⟩ <;> exact hne rfl
      exact not_waiting_of_resolved hs (fun _ _ => id) hrun htwo hr hwait n
    · rcases removal_step hw hop (friendRequestsWith_below.2 ⟨k, rfl⟩) hs'
        (fun e => by subst e; exact hl) with hw | hrej | ⟨hgone, i, rfl, hi⟩
      · exact .inr ⟨w, hw, hop⟩
      · have hfriendship := hf'.rejected _ _ hrej
        rw [hop] at hfriendship
        cases hfriendship
      · -- the removal takes the entry: it was written, since the other one was
        have hindexed : Indexed s.log u v := hl.2 w hi (by
          rw [hop]
          rcases hab with ⟨rfl, rfl⟩ | ⟨rfl, rfl⟩
          · exact .inl rfl
          · exact .inr rfl)
        have hwritten := (hf.observer_of_removeInner (.inr ⟨e, hev⟩)).2
        refine .inl ⟨Written.mono hs'.log_mono ?_, hgone⟩
        rcases hft with ⟨rfl, rfl⟩ | ⟨rfl, rfl⟩ <;> rcases hab with ⟨rfl, rfl⟩ | ⟨rfl, rfl⟩
        · exact hwritten
        · exact (hindexed k).1 hwritten
        · exact (hindexed k).2 hwritten
        · exact hwritten
  cases hs' with
  | @run i e' task app cmds hkey htask hrun =>
    rcases List.mem_cons.1 hev with hev | hev
    · -- the event issues both removals
      cases hev
      cases hrun
      refine .inr ⟨⟨c, .remove (friendRequestsWith a b), none⟩,
        List.mem_append_right _ (mem_newWrites.2 ⟨rfl, ?_⟩), rfl⟩
      rcases hft with ⟨rfl, rfl⟩ | ⟨rfl, rfl⟩ <;> rcases hab with ⟨rfl, rfl⟩ | ⟨rfl, rfl⟩ <;>
        simp [removeInner]
    · exact old hev
  | press | apply | reject | serve | die =>
    rcases List.mem_cons.1 hev with hev | hev
    · cases hev
    · exact old hev

theorem EntriesCleared.of_reaches (hne : u ≠ v) (hs : Start s₀)
    (h : Reaches (Realtime.step (program email)) (Tidy u v) s₀ s) : EntriesCleared u v s := by
  refine h.invariant_of_reached (I := EntriesCleared u v) ?_
    fun ht ih hl hstep => ih.step hne hs ht hl hstep
  intro c t f name k e hev
  rw [hs.initial.log] at hev
  cases hev

section Quiescent

variable (hf : Facts email G s) (hq : s.Quiescent) {k : String}
include hf hq

/-- Where no inner observer of the pair has run for a request, all of it is there. -/
theorem stays_of_not_ran (hkept : KeptOrTold s) (hbetween : Between s.log u v k)
    (hran : ¬ ∃ c t f name e, .ran ⟨c, .removeInner t f name, .childAdded k⟩ e ∈ s.log ∧
      (f = u ∧ t = v ∨ f = v ∧ t = u)) : Stays s u v k := by
  have hwritten : WrittenInFull s.log u v k := by
    rcases hbetween with hsent | hsent
    · exact written_of_sent hf hq hsent
    · have hw := written_of_sent hf hq hsent
      exact ⟨hw.1, hw.2.symm⟩
  obtain ⟨⟨c, d, hr⟩, hentry, hentry'⟩ := hwritten
  have hrecord : Loc.friendRequest k ∈ s.tree := by
    rcases hf.kept c _ d hr with hmem | ⟨c', p, hr, hp⟩
    · exact hmem
    · obtain ⟨cb, hi⟩ := hf.origin.log _ hr
      obtain ⟨t, f, name, e, hev⟩ := Facts.removeRequest_issued hi hp
      have hpair := hf.between_of_written (hf.observer_of_removeInner (.inr ⟨e, hev⟩)).2
      exact absurd ⟨c', t, f, name, e, hev, hf.between_unique hpair hbetween⟩ hran
  rcases hkept u v k with ⟨hmem, hmem'⟩ | htold
  · exact ⟨hrecord, hmem hentry, hmem' hentry'⟩
  · obtain ⟨c, t, f, name, hdue, hft⟩ := due_of_told htold hentry hentry'
    obtain ⟨e, hev⟩ := hdue.ran_of_quiescent hq
    exact absurd ⟨c, t, f, name, e, hev, hft⟩ hran

end Quiescent

/-- When nothing is in flight, the record of every request between `u` and `v` and its two entries
agree, if no removal fell between the two entries of a request and no entry was written where an
observer does not see it. -/
theorem index_agrees (hs : Start s₀) (hne : u ≠ v)
    (h : Reaches (step (program email)) (Tidy u v) s₀ s) (hq : s.Quiescent) (k : String) :
    IndexAgrees s u v k := by
  have hrun := h.mono fun _ _ hl => hl.succeeds.proceeds
  have hf := facts_of_reaches hs (fun _ _ => id) hrun
  by_cases hran : ∃ c t f name e, .ran ⟨c, .removeInner t f name, .childAdded k⟩ e ∈ s.log ∧
      (f = u ∧ t = v ∨ f = v ∧ t = u)
  · -- the event has removed the record and both entries
    obtain ⟨c, t, f, name, e, hev, hft⟩ := hran
    have gone : ∀ a b, a = u ∧ b = v ∨ a = v ∧ b = u → Loc.userFriendRequest a b k ∉ s.tree := by
      intro a b hab
      rcases EntriesCleared.of_reaches hne hs h c t f name k e hev hft a b hab with ⟨-, hgone⟩ |
        ⟨w, hw, -⟩
      · exact hgone
      · rw [hq.writes] at hw
        cases hw
    have hrecord := record_gone_of_due hq (recordCleared_of_reaches hs (fun _ _ => id) hrun)
      (.inr ⟨e, hev⟩)
    have hentry := gone u v (.inl ⟨rfl, rfl⟩)
    have hentry' := gone v u (.inr ⟨rfl, rfl⟩)
    refine ⟨iff_of_false hentry hentry', iff_of_false hentry ?_⟩
    rintro ⟨d, hd, -⟩
    exact hrecord (AList.lookup_isSome.1 (Option.isSome_of_eq_some hd))
  · by_cases hbetween : Between s.log u v k
    · obtain ⟨hrecord, hentry, hentry'⟩ := stays_of_not_ran hf hq
        (keptOrTold_of_reaches hs (fun _ _ => id) hrun) hbetween hran
      refine ⟨iff_of_true hentry hentry', iff_of_true hentry ?_⟩
      obtain ⟨d, hd⟩ := Option.isSome_iff_exists.1 (AList.lookup_isSome.2 hrecord)
      exact ⟨d, hd, hf.between_unique (.inl (hf.sentBy_of_lookup hd)) hbetween⟩
    · have none : ∀ a b, a = u ∧ b = v ∨ a = v ∧ b = u → Loc.userFriendRequest a b k ∉ s.tree := by
        rintro a b (⟨rfl, rfl⟩ | ⟨rfl, rfl⟩) hmem
        · exact hbetween (hf.between_of_written (hf.origin.tree _ hmem))
        · exact hbetween (hf.between_of_written (hf.origin.tree _ hmem)).symm
      refine ⟨iff_of_false (none u v (.inl ⟨rfl, rfl⟩)) (none v u (.inr ⟨rfl, rfl⟩)),
        iff_of_false (none u v (.inl ⟨rfl, rfl⟩)) ?_⟩
      rintro ⟨d, hd, ⟨rfl, rfl⟩ | ⟨rfl, rfl⟩⟩
      · exact hbetween (.inl (hf.sentBy_of_lookup hd))
      · exact hbetween (.inr (hf.sentBy_of_lookup hd))

/-! ## A removal between the two entries -/

theorem tidy_runs : (exec (step (program mail)) (Tidy "alice" "bob") start
    (asking ++ acceptAlice :: accepting true)).isSome = true := by
  decide +kernel

/-- Alice has asked Bob, and then he has accepted. -/
def tidied : FState :=
  (exec (step (program mail)) (Tidy "alice" "bob") start
    (asking ++ acceptAlice :: accepting true)).get tidy_runs

theorem tidied_reached : Reaches (step (program mail)) (Tidy "alice" "bob") start tidied :=
  .of_exec (Option.some_get _).symm

theorem index_agrees_accepted : IndexAgrees tidied "alice" "bob" "k" :=
  index_agrees start_start (by decide) tidied_reached ⟨rfl, rfl, rfl⟩ "k"

/-- Alice sends Bob another request after his accept. The event at the observer that the accept has
left removes both sides of the index before her second entry is written. -/
def crossing : List FLabel := [
  .press (.sendFrienRequestBtnPressed alice (found "bob")) ⟨"k2", 16⟩, .commit 0 true,
  .commit 0 true, .run 0 ⟨"b5", 17⟩, .commit 0 true, .commit 0 true, .commit 0 true,
  .run 0 ⟨"a3", 18⟩, .commit 0 true, .run 0 ⟨"b6", 19⟩, .serve 0 true, .run 0 ⟨"b7", 20⟩,
  .serve 0 true, .run 0 ⟨"b8", 21⟩, .serve 0 true, .run 0 ⟨"a4", 22⟩, .run 0 ⟨"b9", 23⟩,
  .serve 0 true, .run 0 ⟨"b10", 24⟩, .serve 0 true, .run 0 ⟨"b11", 25⟩, .serve 0 true,
  .run 0 ⟨"b12", 26⟩, .run 0 ⟨"b13", 27⟩]

theorem crossing_runs :
    (exec (step (program mail)) Succeeds befriended crossing).isSome = true := by
  decide +kernel

def crossed : FState :=
  (exec (step (program mail)) Succeeds befriended crossing).get crossing_runs

theorem crossed_reached : Reaches (step (program mail)) Succeeds start crossed :=
  befriended_reached.trans (.of_exec (Option.some_get _).symm)

/-- The record and the entries agree for every two users whenever nothing is in flight. -/
def IndexesAgree (email : UID → String) : Prop :=
  ∀ s₀ s u v, Start s₀ → u ≠ v → Reaches (step (program email)) Succeeds s₀ s → s.Quiescent →
    ∀ k, IndexAgrees s u v k

/-- Bob sees an entry that Alice does not have, and whose record is gone. -/
theorem not_indexesAgree : ¬ IndexesAgree mail := by
  intro h
  have hagree := (h start crossed "alice" "bob" start_start (by decide) crossed_reached
    ⟨rfl, rfl, rfl⟩ "k2").1
  revert hagree
  decide +kernel

end FLChat.Friends
