import FLChat.Realtime.Progress

/-!
# Values

Where every value that a program writes meets a property that merging keeps, every value that it
reads meets it (`all_of_reply`).

A location may carry the key of the step that writes it (`DrawsKeys`). As no key is drawn twice,
such a location is written by one command: what was answered never waits again
(`WrittenOnce.settled`) and was answered once (`WrittenOnce.once`), so its value is the one that was
written (`WrittenOnce.valuesWritten`).
-/

namespace Realtime

variable {Loc Client Cb Blob App Action : Type} [Schema Loc]

/-! ## Properties of all values -/

/-- Every value of the tree meets `Q`. -/
def Tree.All (Q : (l : Loc) → Val l → Prop) [DecidableEq Loc] (t : Tree Loc) : Prop :=
  ∀ l v, t.lookup l = some v → Q l v

/-- Merging keeps the property. -/
def Mergeable (Q : (l : Loc) → Val l → Prop) : Prop :=
  ∀ l new old, Q l new → Q l old → Q l (Schema.merge l new old)

/-- What the write stores meets `Q`. -/
def Op.Stores (Q : (l : Loc) → Val l → Prop) (op : Op Loc) : Prop :=
  ∀ l v, op = .update l v → Q l v

section All

variable [DecidableEq Loc] {Q : (l : Loc) → Val l → Prop} (hm : Mergeable Q)
include hm

theorem Tree.All.apply {t : Tree Loc} (h : t.All Q) {op : Op Loc} (hop : op.Stores Q) :
    (op.apply t).All Q := by
  intro l v hv
  by_cases ht : op.touches l
  · cases op with
    | update l' v' =>
      obtain rfl : l' = l := of_decide_eq_true ht
      have hv : (t.update l' v').lookup l' = some v := hv
      rw [Tree.lookup_update_self] at hv
      cases hv
      unfold Tree.merged
      split
      · exact hop _ _ rfl
      · next w hw => exact hm _ _ _ (hop _ _ rfl) (h _ _ hw)
    | remove p =>
      have hp : p.isPrefixOf (path l) = true := ht
      have hv : (t.remove p).lookup l = some v := hv
      simp [Tree.lookup_remove, hp] at hv
  · rw [Op.lookup_apply_of_not_touches (by simpa using ht)] at hv
    exact h l v hv

theorem Tree.All.foldl_update {es : List (Sigma (Val : Loc → Type))} {t : Tree Loc} (h : t.All Q)
    (hes : ∀ e ∈ es, Q e.1 e.2) : (es.foldl (fun t e => t.update e.1 e.2) t).All Q := by
  induction es generalizing t with
  | nil => exact h
  | cons e es ih =>
    have hstores : (Op.update e.1 e.2).Stores Q := by
      rintro l v he
      cases he
      exact hes _ List.mem_cons_self
    exact ih (h.apply hm hstores) fun e' he' => hes e' (List.mem_cons_of_mem _ he')

variable [DecidableEq Client] {P : Program Loc Client Cb Blob App Action}
  {s s' : State Loc Client Cb Blob App Action}
  {ok : State Loc Client Cb Blob App Action → Label Client Action → Prop}

theorem all_view {c : Client} (htree : s.tree.All Q) (hw : ∀ w ∈ s.writes, w.op.Stores Q) :
    (s.view c).All Q := by
  unfold State.view
  have hw : ∀ w ∈ s.writes.filter (fun w => decide (w.client = c)), w.op.Stores Q :=
    fun w hmem => hw w (List.mem_filter.1 hmem).1
  generalize s.writes.filter (fun w => decide (w.client = c)) = ws at hw
  generalize s.tree = t at htree
  induction ws generalizing t with
  | nil => exact htree
  | cons w ws ih =>
    exact ih (fun w' hmem => hw w' (List.mem_cons_of_mem _ hmem)) _
      (htree.apply hm (hw w List.mem_cons_self))

section Run

variable (htree : s.tree.All Q)
  (hw : ∀ t, Reaches (Realtime.step P) ok s t → ∀ w ∈ t.writes, w.op.Stores Q)
  (h : Reaches (Realtime.step P) ok s s')
include htree hw h

theorem all_of_reaches : s'.tree.All Q := by
  refine h.invariant_of_reached (I := fun s => s.tree.All Q) htree fun ht ih _ hstep => ?_
  cases transition_of_step hstep with
  | apply hmem => exact ih.apply hm (hw _ ht _ (List.mem_of_getElem? hmem))
  | press | run | reject | serve | die => exact ih

/-- What a client is told meets the property. -/
theorem all_of_reply (hs : Initial s) {c : Client} {cb : Cb} {l : Loc} {v : Val l}
    (hdue : Due s' ⟨c, cb, .value l (some v)⟩) : Q l v := by
  obtain ⟨u, hu, -, ⟨-, hv⟩ | ⟨w, hmem, -, -, hv⟩⟩ := reply_of_reaches hs h hdue
  · exact all_view hm (all_of_reaches hm htree hw hu) (hw u hu) l v hv.symm
  · exact (all_of_reaches hm htree hw hu).apply hm (hw u hu w hmem) l v hv.symm

end Run

end All

/-! ## Locations that are written once -/

/-- The commands write a location that has a key only under the key `k`, and only one of them
does. -/
structure DrawsKey (key : Loc → Option String) (k : String) (cmds : List (Cmd Loc Cb Blob)) :
    Prop where
  key_eq : ∀ l v cb, .write (.update l v) cb ∈ cmds → ∀ k' ∈ key l, k' = k
  once : cmds.Pairwise fun cmd cmd' => ∀ l v cb v' cb', (key l).isSome →
    cmd = .write (.update l v) cb → cmd' ≠ .write (.update l v') cb'

/-- Whatever is written to a location with a key is written in the step that draws the key. -/
structure DrawsKeys (P : Program Loc Client Cb Blob App Action) (key : Loc → Option String) :
    Prop where
  act : ∀ {a e app c app' cmds}, P.act a e app = some (c, app', cmds) → DrawsKey key e.key cmds
  handle : ∀ c e cb input app, DrawsKey key e.key (P.handle c e cb input app).2

/-- The two writes are not of the same location with a key. -/
def Elsewhere (key : Loc → Option String) (w w' : Write Loc Client Cb) : Prop :=
  ∀ l v v', (key l).isSome → w.op = .update l v → w'.op ≠ .update l v'

/-- A location with a key is written once. -/
structure WrittenOnce (key : Loc → Option String)
    (s : State Loc Client Cb Blob App Action) : Prop where
  waiting : ∀ w ∈ s.writes, ∀ l v, w.op = .update l v → ∀ k ∈ key l, k ∈ s.issued
  answered : ∀ l, Answered s.log l → ∀ k ∈ key l, k ∈ s.issued
  settled : ∀ l, (key l).isSome → Answered s.log l → ∀ w ∈ s.writes, ∀ v, w.op ≠ .update l v
  once : ∀ l, (key l).isSome → ∀ c v b c' v' b', .resolved c (.update l v) b ∈ s.log →
    .resolved c' (.update l v') b' ∈ s.log → c = c' ∧ v = v' ∧ b = b'
  distinct : s.writes.Pairwise (Elsewhere key)

namespace WrittenOnce

variable {key : Loc → Option String} {s s' : State Loc Client Cb Blob App Action}

theorem initial (h : Initial s) : WrittenOnce key s where
  waiting := by simp [h.writes]
  answered l := by
    rintro ⟨c, v, b, hr⟩
    simp [h.log] at hr
  settled := by simp [h.writes]
  once l _ c v b c' v' b' hr := by simp [h.log] at hr
  distinct := by simp [h.writes]

/-- Commands under a fresh key keep every location written once. -/
theorem issue (h : WrittenOnce key s) {c : Client} {k : String} {cmds : List (Cmd Loc Cb Blob)}
    (hk : k ∉ s.issued) (hdraws : DrawsKey key k cmds)
    (hwrites : s'.writes = s.writes ++ newWrites c cmds) (hissued : s'.issued = k :: s.issued)
    (hlog : ∀ c op b, .resolved c op b ∈ s'.log ↔ .resolved c op b ∈ s.log) :
    WrittenOnce key s' := by
  have hanswered : ∀ l, Answered s'.log l → Answered s.log l := fun l ⟨c, v, b, hr⟩ =>
    ⟨c, v, b, (hlog _ _ _).1 hr⟩
  have hnew : ∀ w ∈ newWrites c cmds, ∀ l v, w.op = .update l v → ∀ k' ∈ key l, k' = k := by
    intro w hw l v hop
    obtain ⟨-, hcmd⟩ := mem_newWrites.1 hw
    rw [hop] at hcmd
    exact hdraws.key_eq l v _ hcmd
  refine ⟨fun w hw l v hop k' hk' => ?_, fun l hl k' hk' => ?_, fun l hkey hl w hw v hop => ?_,
    fun l hkey c v b c' v' b' hr hr' => ?_, ?_⟩
  · rw [hissued]
    rw [hwrites] at hw
    rcases List.mem_append.1 hw with hw | hw
    · exact List.mem_cons_of_mem _ (h.waiting w hw l v hop k' hk')
    · exact hnew w hw l v hop k' hk' ▸ List.mem_cons_self
  · rw [hissued]
    exact List.mem_cons_of_mem _ (h.answered l (hanswered l hl) k' hk')
  · rw [hwrites] at hw
    rcases List.mem_append.1 hw with hw | hw
    · exact h.settled l hkey (hanswered l hl) w hw v hop
    · obtain ⟨k', hk'⟩ := Option.isSome_iff_exists.1 hkey
      have hold := h.answered l (hanswered l hl) k' hk'
      rw [hnew w hw l v hop k' hk'] at hold
      exact hk hold
  · exact h.once l hkey c v b c' v' b' ((hlog _ _ _).1 hr) ((hlog _ _ _).1 hr')
  · rw [hwrites]
    refine List.pairwise_append.2 ⟨h.distinct, ?_, fun w hw w' hw' l v v' hkey hop hop' => ?_⟩
    · refine hdraws.once.filterMap _ fun cmd cmd' hne w hw w' hw' l v v' hkey hop hop' => ?_
      cases cmd with
      | ask => cases hw
      | write op cb =>
        cases cmd' with
        | ask => cases hw'
        | write op' cb' =>
          cases hw
          cases hw'
          obtain rfl : op = .update l v := hop
          obtain rfl : op' = .update l v' := hop'
          exact hne l v cb v' cb' hkey rfl rfl
    · obtain ⟨k', hk'⟩ := Option.isSome_iff_exists.1 hkey
      have hold := h.waiting w hw l v hop k' hk'
      rw [hnew w' hw' l v' hop' k' hk'] at hold
      exact hk hold

/-- An answer keeps every location written once. -/
theorem answer (h : WrittenOnce key s) {i : ℕ} {w : Write Loc Client Cb} {b : Bool}
    (hw : s.writes[i]? = some w) (hwrites : s'.writes = s.writes.eraseIdx i)
    (hissued : s'.issued = s.issued) (hlog : s'.log = .resolved w.client w.op b :: s.log) :
    WrittenOnce key s' := by
  have hmem := List.mem_of_getElem? hw
  have hrest : ∀ w' ∈ s'.writes, w' ∈ s.writes ∧ Elsewhere key w w' := by
    intro w' hw'
    rw [hwrites, List.mem_eraseIdx_iff_getElem?] at hw'
    obtain ⟨j, hij, hj⟩ := hw'
    refine ⟨List.mem_of_getElem? hj, ?_⟩
    obtain ⟨hi', rfl⟩ := List.getElem?_eq_some_iff.1 hw
    obtain ⟨hj', rfl⟩ := List.getElem?_eq_some_iff.1 hj
    rcases Nat.lt_or_gt_of_ne hij with hlt | hgt
    · intro l v v' hkey hop hop'
      exact List.pairwise_iff_getElem.1 h.distinct j i hj' hi' hlt l v' v hkey hop' hop
    · exact List.pairwise_iff_getElem.1 h.distinct i j hi' hj' hgt
  have hcases : ∀ {c l v b'}, .resolved c (.update l v) b' ∈ s'.log →
      .resolved c (.update l v) b' ∈ s.log ∨ c = w.client ∧ w.op = .update l v ∧ b' = b := by
    intro c l v b' hr
    rw [hlog] at hr
    rcases List.mem_cons.1 hr with he | hr
    · injection he with hc hop hb
      exact .inr ⟨hc, hop.symm, hb⟩
    · exact .inl hr
  refine ⟨fun w' hw' l v hop k hk => ?_, fun l hl k hk => ?_, fun l hkey hl w' hw' v hop => ?_,
    fun l hkey c v b₁ c' v' b₂ hr hr' => ?_, ?_⟩
  · rw [hissued]
    exact h.waiting w' (hrest w' hw').1 l v hop k hk
  · rw [hissued]
    obtain ⟨c, v, b', hr⟩ := hl
    rcases hcases hr with hr | ⟨-, hop, -⟩
    · exact h.answered l ⟨c, v, b', hr⟩ k hk
    · exact h.waiting w hmem l v hop k hk
  · obtain ⟨c, v', b', hr⟩ := hl
    rcases hcases hr with hr | ⟨-, hop', -⟩
    · exact h.settled l hkey ⟨c, v', b', hr⟩ w' (hrest w' hw').1 v hop
    · exact (hrest w' hw').2 l v' v hkey hop' hop
  · rcases hcases hr with hr | ⟨rfl, hop, rfl⟩
    · rcases hcases hr' with hr' | ⟨-, hop', -⟩
      · exact h.once l hkey c v b₁ c' v' b₂ hr hr'
      · exact absurd hop' (h.settled l hkey ⟨c, v, b₁, hr⟩ w hmem v')
    · rcases hcases hr' with hr' | ⟨rfl, hop', rfl⟩
      · exact absurd hop (h.settled l hkey ⟨c', v', b₂, hr'⟩ w hmem v)
      · rw [hop] at hop'
        cases hop'
        exact ⟨rfl, rfl, rfl⟩
  · rw [hwrites]
    exact h.distinct.sublist (List.eraseIdx_sublist _ _)

variable [DecidableEq Loc] [DecidableEq Client] {P : Program Loc Client Cb Blob App Action}
  {l : Label Client Action}
  {ok : State Loc Client Cb Blob App Action → Label Client Action → Prop}

theorem step (h : WrittenOnce key s) (hP : DrawsKeys P key) (hs : Transition P s l s') :
    WrittenOnce key s' := by
  cases hs with
  | press hkey hact =>
    exact h.issue hkey (hP.act hact) rfl rfl fun _ _ _ => by simp
  | @run i e t app cmds hkey ht hrun =>
    have hdraws := hP.handle t.client e t.cb t.input s.app
    rw [hrun] at hdraws
    exact h.issue hkey hdraws rfl rfl fun _ _ _ => by simp
  | apply hw => exact h.answer hw rfl rfl rfl
  | reject hw => exact h.answer hw rfl rfl rfl
  | serve =>
    have hlog : ∀ {c a b l}, Answered (Event.served c a b :: s.log) l → Answered s.log l :=
      fun ⟨c, v, b, hr⟩ => ⟨c, v, b, (List.mem_cons.1 hr).resolve_left (by simp)⟩
    refine ⟨h.waiting, fun l hl => h.answered l (hlog hl),
      fun l hkey hl => h.settled l hkey (hlog hl), fun l hkey c v b c' v' b' hr hr' => ?_,
      h.distinct⟩
    exact h.once l hkey c v b c' v' b' ((List.mem_cons.1 hr).resolve_left (by simp))
      ((List.mem_cons.1 hr').resolve_left (by simp))
  | die =>
    have hlog : ∀ {c l}, Answered (Event.died c :: s.log) l → Answered s.log l :=
      fun ⟨c, v, b, hr⟩ => ⟨c, v, b, (List.mem_cons.1 hr).resolve_left (by simp)⟩
    refine ⟨fun w hw => h.waiting w (List.mem_filter.1 hw).1, fun l hl => h.answered l (hlog hl),
      fun l hkey hl w hw => h.settled l hkey (hlog hl) w (List.mem_filter.1 hw).1,
      fun l hkey c v b c' v' b' hr hr' => ?_, h.distinct.sublist List.filter_sublist⟩
    exact h.once l hkey c v b c' v' b' ((List.mem_cons.1 hr).resolve_left (by simp))
      ((List.mem_cons.1 hr').resolve_left (by simp))

theorem of_reaches (hs : Initial s) (hP : DrawsKeys P key)
    (h : Reaches (Realtime.step P) ok s s') : WrittenOnce key s' :=
  h.invariant (initial hs) fun ih _ hstep => ih.step hP (transition_of_step hstep)

/-- The value at a location with a key is the one that was written. -/
theorem valuesWritten (hs : Initial s) (htree : s.tree = ∅) (hP : DrawsKeys P key)
    (h : Reaches (Realtime.step P) ok s s') :
    ValuesWritten (fun l => (key l).isSome = true) s' :=
  .of_reaches htree (fun ht w hw l new hl hop c old hr =>
    absurd hop ((of_reaches hs hP ht).settled l hl ⟨c, old, true, hr⟩ w hw new)) h

omit [DecidableEq Client] in
/-- Of writes among which a location with a key is written at most once, and not at all where it has
a value, a value of it is left that was there or was written. -/
theorem lookup_foldl {l : Loc} (hkey : (key l).isSome) {v : Val l} {ws : List (Write Loc Client Cb)}
    {t : Tree Loc} (hdistinct : ws.Pairwise (Elsewhere key))
    (ht : t.lookup l = none ∨ ∀ w ∈ ws, ∀ v, w.op ≠ .update l v)
    (hv : (ws.foldl (fun t w => w.op.apply t) t).lookup l = some v) :
    t.lookup l = some v ∨ ∃ w ∈ ws, w.op = .update l v := by
  induction ws generalizing t with
  | nil => exact .inl hv
  | cons w ws ih =>
    obtain ⟨hfirst, hdistinct⟩ := List.pairwise_cons.1 hdistinct
    by_cases htouches : w.op.touches l
    · cases hop : w.op with
      | update l' v' =>
        rw [hop] at htouches
        obtain rfl : l' = l := of_decide_eq_true htouches
        have hnone := ht.resolve_right fun h => h w List.mem_cons_self v' hop
        have hmerged : t.merged l' v' = v' := by
          unfold Tree.merged
          rw [hnone]
        have hnew : (w.op.apply t).lookup l' = some v' := by
          rw [hop]
          change (t.update l' v').lookup l' = some v'
          rw [Tree.lookup_update_self, hmerged]
        have hrest : ∀ w' ∈ ws, ∀ v, w'.op ≠ .update l' v := fun w' hw' v'' =>
          hfirst w' hw' l' v' v'' hkey hop
        rcases ih hdistinct (.inr hrest) hv with hv | ⟨w', hw', hop'⟩
        · obtain rfl := Option.some.inj (hnew.symm.trans hv)
          exact .inr ⟨w, List.mem_cons_self, hop⟩
        · exact absurd hop' (hrest w' hw' v)
      | remove p =>
        rw [hop] at htouches
        have hgone : (w.op.apply t).lookup l = none := by
          rw [hop]
          have hp : p.isPrefixOf (path l) = true := htouches
          change (t.remove p).lookup l = none
          simp [Tree.lookup_remove, hp]
        rcases ih hdistinct (.inl hgone) hv with hv | ⟨w', hw', hop'⟩
        · cases hgone.symm.trans hv
        · exact .inr ⟨w', List.mem_cons_of_mem _ hw', hop'⟩
    · have hsame := Op.lookup_apply_of_not_touches (t := t) (by simpa using htouches)
      have ht' : (w.op.apply t).lookup l = none ∨ ∀ w' ∈ ws, ∀ v, w'.op ≠ .update l v := by
        rw [hsame]
        exact ht.imp_right fun h w' hw' => h w' (List.mem_cons_of_mem _ hw')
      rcases ih hdistinct ht' hv with hv | ⟨w', hw', hop'⟩
      · exact .inl (hsame.symm.trans hv)
      · exact .inr ⟨w', List.mem_cons_of_mem _ hw', hop'⟩

/-- A client sees a location with a key as it was written: by itself, if that write still waits. -/
theorem lookup_view (h : WrittenOnce key s) {l : Loc} (hkey : (key l).isSome)
    (htree : l ∈ s.tree → Answered s.log l) {c : Client} {v : Val l}
    (hv : (s.view c).lookup l = some v) :
    s.tree.lookup l = some v ∨ ∃ w ∈ s.writes, w.client = c ∧ w.op = .update l v := by
  have hstart : s.tree.lookup l = none ∨
      ∀ w ∈ s.writes.filter (fun w => decide (w.client = c)), ∀ v, w.op ≠ .update l v := by
    by_cases hl : l ∈ s.tree
    · exact .inr fun w hw => h.settled l hkey (htree hl) w (List.mem_filter.1 hw).1
    · exact .inl (AList.lookup_eq_none.2 hl)
  rcases lookup_foldl hkey (h.distinct.sublist List.filter_sublist) hstart hv with hv | ⟨w, hw, hop⟩
  · exact .inl hv
  · obtain ⟨hw, hc⟩ := List.mem_filter.1 hw
    exact .inr ⟨w, hw, of_decide_eq_true hc, hop⟩

end WrittenOnce

end Realtime
