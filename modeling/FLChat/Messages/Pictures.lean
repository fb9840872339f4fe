import FLChat.Messages.Delivery

/-!
# Pictures

All pictures of a user go to the one object `user_pictures/<uid>`. As long as no upload replaces an
earlier one, every picture message keeps its picture (`picturesKept_of_reaches`); the second picture
of a user takes the first one's place (`not_picturesKept`).
-/

namespace FLChat.Messages

open Realtime

variable {jpegData : UIImage → Option Data} {user : Client → Option UID} {s₀ s s' : MState}
  {follows : DownloadURL → Bool}

/-- The message `id` was sent with the picture `image`, which was picked for it. -/
def PickedFor (log : List MEvent) (id : String) (image : UIImage) : Prop :=
  ∃ vc, (∃ e, .pressed (.pickImage vc image) e ∈ log) ∧
    ∃ c u e, e.key = id ∧ .ran ⟨c, .pictureURL vc image, .url (some u)⟩ e ∈ log

/-- The image URL of every message yields the picture that was picked for it. -/
def PicturesKept (jpegData : UIImage → Option Data) (follows : DownloadURL → Bool) (s : MState) :
    Prop :=
  ∀ id dict u, s.tree.lookup (.messages id) = some dict → dict.imageUrl = some u →
    ∃ image data, PickedFor s.log id image ∧ jpegData image = some data ∧
      s.resolve follows u = some data

/-- The steps of a run in which all uploads succeed and nobody signs in or out. -/
def Uploads (_ : MState) : MLabel → Prop
  | .press a e => SameAccounts (.press a e)
  | .serve _ ok => ok = true
  | .run _ _ | .commit _ _ | .die _ => True

/-- A request that stores a picture finds no object at its path. -/
def FreshPath (objects : Path → Option (Object Data)) : Ask Loc Cb Data → Prop
  | .putData p _ _ => (objects p).isNone
  | _ => True

/-- The step stores no picture where there is one already. -/
def ReplacesNothing (s : MState) : MLabel → Prop
  | .serve i _ => ∀ x ∈ s.asks[i]?, FreshPath s.objects x.2
  | _ => True

/-- Such runs in which no upload replaces an earlier one. -/
def UploadsOnce (s : MState) (l : MLabel) : Prop := Uploads s l ∧ ReplacesNothing s l

instance (s : MState) : DecidablePred (Uploads s)
  | .press a e => inferInstanceAs (Decidable (SameAccounts (.press a e)))
  | .serve _ ok => inferInstanceAs (Decidable (ok = true))
  | .run _ _ | .commit _ _ | .die _ => isTrue trivial

instance (objects : Path → Option (Object Data)) : DecidablePred (FreshPath objects)
  | .putData _ _ _ => inferInstanceAs (Decidable (_ = true))
  | .childAdded _ _ | .value _ _ | .single _ _ | .downloadURL _ _ => isTrue trivial

instance (s : MState) : DecidablePred (ReplacesNothing s)
  | .serve i _ => inferInstanceAs (Decidable (∀ x ∈ s.asks[i]?, FreshPath s.objects x.2))
  | .press _ _ | .run _ _ | .commit _ _ | .die _ => isTrue trivial

instance (s : MState) : DecidablePred (UploadsOnce s) := fun _ =>
  inferInstanceAs (Decidable (_ ∧ _))

theorem Uploads.sameAccounts : ∀ s l, Uploads s l → SameAccounts l := by
  intro s l h
  cases l with
  | press => exact h
  | run | commit | serve | die => trivial

/-! ## Objects stay -/

/-- A step that replaces nothing keeps every object. -/
theorem objects_step {l : MLabel} (hl : ReplacesNothing s l)
    (hs : Transition (program jpegData) s l s') {p : Path} {o : Object Data}
    (ho : s.objects p = some o) : s'.objects p = some o := by
  cases hs with
  | @serve i c a ok ha =>
    simp only [State.served_objects]
    unfold Ask.store
    split
    · next q data cb =>
      by_cases hp : p = q
      · have := Option.isNone_iff_eq_none.1 (hl _ ha)
        rw [hp, this] at ho
        cases ho
      · simp only [hp, ↓reduceIte, ho]
    · exact ho
  | press | run | apply | reject | die => exact ho

/-- What every upload stored is still there, and every URL designates what is at its path. -/
structure Stored (s : MState) : Prop where
  uploads : ∀ c p data cb ok, .served c (.putData p data cb) ok ∈ s.log →
    ∃ o, s.objects p = some o ∧ o.content = data
  urls : ∀ c cb u, Due s ⟨c, cb, .url (some u)⟩ →
    ∃ o, s.objects u.path = some o ∧ o.token = u.token

theorem Stored.step (h : Stored s) {l : MLabel} (hl : UploadsOnce s l)
    (hs : Transition (program jpegData) s l s') : Stored s' where
  uploads c p data cb ok hev := by
    have old : .served c (.putData p data cb) ok ∈ s.log →
        ∃ o, s'.objects p = some o ∧ o.content = data := fun hev =>
      (h.uploads c p data cb ok hev).imp fun o ho => ⟨objects_step hl.2 hs ho.1, ho.2⟩
    cases hs with
    | @serve i c' a ok' ha =>
      rcases List.mem_cons.1 hev with hev | hev
      · cases hev
        obtain rfl : ok = true := hl.1
        exact ⟨_, if_pos rfl, rfl⟩
      · exact old hev
    | press | run | apply | reject | die =>
      rcases List.mem_cons.1 hev with hev | hev
      · cases hev
      · exact old hev
  urls c cb u hdue := by
    rcases hdue.cases hs with hdue | ⟨i, c', a, ok, ha, rfl, ht⟩ | ⟨i, w, -, -, ht | ht⟩ |
      ⟨w, -, ok, ht⟩
    · exact (h.urls c cb u hdue).imp fun o ho => ⟨objects_step hl.2 hs ho.1, ho.2⟩
    · -- a URL is drawn for what is at its path
      cases a with
      | downloadURL p cb' =>
        have ht := List.mem_singleton.1 ht
        split at ht
        · cases ho : s.objects p with
          | none =>
            rw [ho] at ht
            cases ht
          | some o =>
            rw [ho] at ht
            cases ht
            exact ⟨o, objects_step hl.2 hs ho, rfl⟩
        · cases ht
      | childAdded p cb' =>
        obtain ⟨k, -, he⟩ := List.mem_map.1 ht
        cases he
      | value | single | putData => cases List.mem_singleton.1 ht
    · obtain ⟨o, -, l, v, k, -, -, -, he⟩ := mem_childEvents.1 ht
      cases he
    · obtain ⟨o, -, -, he⟩ := mem_valueEvents.1 ht
      cases he
    · obtain ⟨cb', -, he⟩ := mem_ack.1 ht
      cases he

theorem Stored.of_reaches (hs : Initial s₀)
    (h : Reaches (Realtime.step (program jpegData)) UploadsOnce s₀ s) : Stored s :=
  h.invariant
    ⟨by simp [hs.log], fun c cb u hdue => by
      rcases hdue with h | ⟨e, h⟩
      · simp [hs.tasks] at h
      · simp [hs.log] at h⟩
    fun ih hl hstep => ih.step hl (transition_of_step hstep)

/-! ## From a record to its picture -/

/-- The URL of a picture message came back for the upload of the picture. -/
theorem upload_of_pictureURL (h : History jpegData user s) {c : Client} {vc : MessageVC}
    {image : UIImage} {u : DownloadURL} {e : Env}
    (hev : .ran ⟨c, .pictureURL vc image, .url (some u)⟩ e ∈ s.log) :
    (∃ e', .pressed (.pickImage vc image) e' ∈ s.log) ∧ ∃ data cb ok,
      jpegData image = some data ∧ .served c (.putData u.path data cb) ok ∈ s.log := by
  obtain ⟨p, hi, hu⟩ := h.origin.log _ hev
  obtain ⟨ev, hfetch, hi⟩ := issues_of_issued hi
  cases hi with
  | fetchURL =>
    obtain ⟨p, data, hi, hserved⟩ := h.origin.log _ hfetch
    obtain ⟨ev', hpick, hi⟩ := issues_of_issued hi
    cases hi with
    | upload hdata huid =>
      rw [← hu u rfl] at hserved
      exact ⟨⟨_, hpick⟩, data, _, _, hdata, hserved⟩

/-- A picture message was sent with the URL that its record holds. -/
theorem pictureURL_of_lookup (h : History jpegData user s) (hv : ValuesWritten Loc.isMessage s)
    {id : String} {dict : MessageDict} {u : DownloadURL}
    (hdict : s.tree.lookup (.messages id) = some dict) (hu : dict.imageUrl = some u) :
    ∃ c vc image e, e.key = id ∧ .ran ⟨c, .pictureURL vc image, .url (some u)⟩ e ∈ s.log := by
  obtain ⟨c, hr⟩ := hv (.messages id) dict trivial hdict
  obtain ⟨m, hm, rfl, rfl⟩ := h.sent_of_resolved hr
  obtain ⟨ev, hev, hm⟩ := mem_sentMessages.1 hm
  unfold sentBy at hm
  split at hm
  · obtain ⟨fromId, -, rfl⟩ := Option.map_eq_some_iff.1 hm
    cases hu
  · obtain ⟨fromId, -, rfl⟩ := Option.map_eq_some_iff.1 hm
    cases hu
    exact ⟨_, _, _, _, rfl, hev⟩
  · cases hm

/-- Every image is its own JPEG. -/
def jpeg (image : UIImage) : Option Data := some image.pixels

def cat : UIImage := ⟨"cat", 200, 100⟩

def dog : UIImage := ⟨"dog", 300, 300⟩

/-- Alice sends a picture to Bob. -/
def sendCat : List MLabel := [
  .press (.pickImage aliceVC cat) ⟨"p1", 0⟩, .serve 0 true,
  .run 0 ⟨"k1", 1⟩, .serve 0 true,
  .run 0 ⟨"m1", 2⟩, .commit 0 true]

theorem sendCat_runs : (exec (step (program jpeg)) UploadsOnce start sendCat).isSome = true := by
  decide +kernel

def catSent : MState :=
  (exec (step (program jpeg)) UploadsOnce start sendCat).get sendCat_runs

/-- Where no upload replaces an earlier one, every picture message keeps its picture. -/
theorem picturesKept_of_reaches (hs : Start s₀)
    (h : Reaches (step (program jpegData)) UploadsOnce s₀ s) :
    PicturesKept jpegData follows s := by
  intro id dict u hdict hu
  have hstay : ∀ s l, UploadsOnce s l → SameAccounts l := fun s l hl =>
    Uploads.sameAccounts s l hl.1
  have hist := History.of_reaches hs.initial hs.tree hstay h
  have hval := History.valuesWritten hs.initial hs.tree hstay h
  obtain ⟨c, vc, image, e, hid, hev⟩ := pictureURL_of_lookup hist hval hdict hu
  obtain ⟨hpick, data, cb, ok, hdata, hserved⟩ := upload_of_pictureURL hist hev
  have hstored := Stored.of_reaches hs.initial h
  obtain ⟨o, ho, hcontent⟩ := hstored.uploads _ _ _ _ _ hserved
  obtain ⟨o', ho', htoken⟩ := hstored.urls _ _ _ (.inr ⟨e, hev⟩)
  obtain rfl : o = o' := Option.some.inj (ho.symm.trans ho')
  refine ⟨image, data, ⟨vc, hpick, c, u, e, hid, hev⟩, hdata, ?_⟩
  simp only [State.resolve, ho, htoken, true_or, ↓reduceIte, hcontent]

theorem picturesKept_catSent : PicturesKept jpeg (fun _ => false) catSent :=
  picturesKept_of_reaches start_start (.of_exec (Option.some_get _).symm)

/-! ## The second picture -/

/-- Alice sends a picture and uploads another one. -/
def sendTwo : List MLabel :=
  sendCat ++ [.press (.pickImage aliceVC dog) ⟨"p2", 3⟩, .serve 0 true]

theorem sendTwo_runs : (exec (step (program jpeg)) Uploads start sendTwo).isSome = true := by
  decide +kernel

def twoSent : MState := (exec (step (program jpeg)) Uploads start sendTwo).get sendTwo_runs

theorem twoSent_reached : Reaches (step (program jpeg)) Uploads start twoSent :=
  .of_exec (Option.some_get _).symm

theorem twoSent_object :
    twoSent.objects (userPicturesPath "alice") = some ⟨1, "dog"⟩ := rfl

/-- Once the second upload is stored, the first message has lost its picture, whatever its URL
yields by then. -/
theorem not_picturesKept : ¬ ∃ follows, ∀ s₀ s, Start s₀ →
    Reaches (step (program jpeg)) Uploads s₀ s → PicturesKept jpeg follows s := by
  rintro ⟨follows, h⟩
  obtain ⟨image, data, ⟨vc, -, c, u, e, hid, hev⟩, hdata, hresolve⟩ :=
    h start twoSent start_start twoSent_reached "m1" _ ⟨userPicturesPath "alice", 0⟩ rfl rfl
  -- the message was sent with the cat
  have hkeys := KeysFresh.of_reaches start_start.initial twoSent_reached
  have hsent : Event.ran ⟨0, .pictureURL aliceVC cat, .url (some ⟨userPicturesPath "alice", 0⟩)⟩
      ⟨"m1", 2⟩ ∈ twoSent.log := List.mem_of_getElem? (i := 3) rfl
  cases hkeys.event_eq hev hsent (congrArg some hid) rfl
  cases hdata
  simp only [State.resolve, twoSent_object] at hresolve
  split at hresolve
  · exact absurd hresolve (by decide)
  · cases hresolve

end FLChat.Messages
