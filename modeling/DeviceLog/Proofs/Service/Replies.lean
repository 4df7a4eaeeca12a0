import DeviceLog.Proofs.Service.Body
import DeviceLog.Proofs.Store.Adds
import DeviceLog.Proofs.Store.Fits

/-! # What replies promise

* `Http.wish_eq_keep_iff`: which requests ask to keep an update.
* `Http.exists_respond`: a request that is answered with `kept` has added its update to the store, and any
  other has changed no file. `exists_ready` carries the invariant of the store over any requests.
* `Http.respond_contract` puts these together with what bodies are read as. Not all that is posted is kept:
  `not_kept_longUpdate` is about device ids that are too long for the file system.
-/

namespace DeviceLog.Http

open FileSystem

/-- The reply to an update that was kept. -/
def kept : Reply := ⟨200, (Response.mk true).toJson.render⟩

/-- Whether a request posts an update. -/
structure Request.Posts (r : Request) (u : StateUpdate) : Prop where
  method : r.method = "POST"
  path : pathOf r.target = "/api/device-state"
  contentType : r.contentType.any MediaType.isJson = true
  length : r.body.length ≤ longestBody
  body : StateUpdate.ofRequest r.body = .ok u

/-- A request that comes in, when it comes, and the marker of a log that may be made for it. -/
structure Arrival where
  marker : Marker
  instant : Instant
  request : Request

/-- The file system after requests, one after another. -/
def served (s : Store) (arrivals : List Arrival) (fs : FileSystem) : FileSystem :=
  arrivals.foldl (fun fs a => (respond s a.marker a.instant a.request fs).2) fs

variable {s : Store} {r : Request} {u : StateUpdate} {fs₀ fs : FileSystem}
  {records : PartitionKey → List DeviceRecord}

/-! ## Requests -/

theorem wishOfBody_eq_keep_iff {body : Bytes} :
    wishOfBody body = .keep u ↔ StateUpdate.ofRequest body = .ok u := by
  unfold wishOfBody
  split <;> simp_all

theorem wish_eq_keep_iff : wish r = .keep u ↔ r.Posts u := by
  constructor
  · intro h
    simp only [wish] at h
    split at h
    · split at h
      · cases h
      · split at h <;> cases h
    split at h
    · rename_i hpath
      split at h
      · rename_i hmethod
        simp only [wishOfUpdate] at h
        split at h
        · cases h
        · rename_i htype
          split at h
          · cases h
          · rename_i hlength
            exact ⟨hmethod, hpath, by simpa using htype, Nat.not_lt.1 hlength, wishOfBody_eq_keep_iff.1 h⟩
      · cases h
    · cases h
  · rintro ⟨hmethod, hpath, htype, hlength, hbody⟩
    simp only [wish, hpath, hmethod, wishOfUpdate, htype]
    rw [if_neg (by decide), if_pos trivial, if_pos trivial, if_neg (by simp), if_neg (Nat.not_lt.2 hlength)]
    exact wishOfBody_eq_keep_iff.2 hbody

/-- What is posted can be written, with every codec. -/
theorem Request.Posts.carries (h : r.Posts u) {record : DeviceRecord} (hrecord : Store.recordOf u = .ok record)
    (codec : Codec) : codec.Carries record.toDatum.bytes := by
  refine StateUpdate.carries_of_ofRequest h.length h.body ?_ codec
  exact ((Store.recordOf_eq_ok_iff SaveCall.firstCall.instant).1 hrecord).2

/-! ## Replies -/

variable {marker : Marker} {instant : Instant} {gs : FileSystem}

theorem respond_of_save_ok (h : r.Posts u) (hsave : s.save marker u instant fs = (.ok (), gs)) :
    respond s marker instant r fs = (kept, gs) := by
  simp only [respond, wish_eq_keep_iff.2 h, Store.set, hsave, kept]

theorem respond_of_save_error (h : r.Posts u) {e : StoreError}
    (hsave : s.save marker u instant fs = (.error e, gs)) :
    ∃ reply, respond s marker instant r fs = (reply, gs) ∧ reply ≠ kept := by
  refine ⟨⟨200, (Response.mk false).toJson.render⟩, ?_, by decide⟩
  simp only [respond, wish_eq_keep_iff.2 h, Store.set, hsave]

/-- A request that posts no update is answered without the store. -/
theorem respond_of_not_posts (h : ∀ u, ¬r.Posts u) :
    ∃ reply, respond s marker instant r fs = (reply, fs) ∧ reply ≠ kept := by
  unfold respond
  split
  · rename_i brief hwish
    refine ⟨_, rfl, ?_⟩
    cases brief <;> decide
  · exact ⟨_, rfl, fun heq => absurd (congrArg Reply.body heq) (show "" ≠ kept.body by decide)⟩
  · rename_i u hwish
    exact absurd (wish_eq_keep_iff.1 hwish) (h u)

/-- A request that is answered with `kept` has added its update, and any other has changed no file. -/
theorem exists_respond (h : Store.Ready s.root (fun _ => True) fs₀ fs records) (a : Arrival) :
    ∃ reply gs after, respond s a.marker a.instant a.request fs = (reply, gs)
      ∧ Store.Ready s.root (fun _ => True) fs₀ gs after
      ∧ ((reply = kept ∧ ∃ u record, a.request.Posts u ∧ Store.recordOf u = .ok record
          ∧ s.Adds u a.instant record fs gs)
        ∨ reply ≠ kept ∧ ∀ place, gs.content? place = fs.content? place) := by
  by_cases hposts : ∃ u, a.request.Posts u
  · obtain ⟨u, hu⟩ := hposts
    obtain ⟨r, gs, hsave, ⟨record, rfl, hrecord, hadds, hready⟩ | ⟨⟨e, rfl⟩, hsame, hready⟩⟩ :=
      h.exists_save a.marker u a.instant fun record hrecord => hu.carries hrecord
    · exact ⟨kept, gs, _, respond_of_save_ok hu hsave, hready, .inl ⟨rfl, u, record, hu, hrecord, hadds⟩⟩
    · obtain ⟨reply, hrespond, hne⟩ := respond_of_save_error hu hsave
      exact ⟨reply, gs, _, hrespond, hready, .inr ⟨hne, hsame⟩⟩
  · obtain ⟨reply, hrespond, hne⟩ := respond_of_not_posts (not_exists.1 hposts)
    exact ⟨reply, fs, _, hrespond, h, .inr ⟨hne, fun _ => rfl⟩⟩

theorem exists_ready (earlier : List Arrival) : ∀ {fs : FileSystem}
    {records : PartitionKey → List DeviceRecord}, Store.Ready s.root (fun _ => True) fs₀ fs records →
      ∃ after, Store.Ready s.root (fun _ => True) fs₀ (served s earlier fs) after := by
  induction earlier with
  | nil => intro fs records h; exact ⟨records, h⟩
  | cons a earlier ih =>
    intro fs records h
    obtain ⟨reply, gs, after, hrespond, hready, -⟩ := exists_respond h a
    have hserved : served s (a :: earlier) fs = served s earlier gs := by
      simp only [served, List.foldl_cons, hrespond]
    rw [hserved]
    exact ih hready

section Answered

variable {a : Arrival} {reply : Reply} (h : Store.Ready s.root (fun _ => True) fs₀ fs records)
  (hrespond : respond s a.marker a.instant a.request fs = (reply, gs))
include h hrespond

theorem added_of_kept (hkept : reply = kept) : ∃ u record, a.request.Posts u ∧ Store.recordOf u = .ok record
    ∧ s.Adds u a.instant record fs gs := by
  obtain ⟨_, _, -, hrespond', -, hreply⟩ := exists_respond h a
  cases hrespond.symm.trans hrespond'
  rcases hreply with ⟨-, hadded⟩ | ⟨hne, -⟩
  · exact hadded
  · exact absurd hkept hne

theorem content?_of_not_kept (hne : reply ≠ kept) (place : Place) : gs.content? place = fs.content? place := by
  obtain ⟨_, _, -, hrespond', -, hreply⟩ := exists_respond h a
  cases hrespond.symm.trans hrespond'
  rcases hreply with ⟨heq, -⟩ | ⟨-, hsame⟩
  · exact absurd heq hne
  · exact hsame place

/-- What is added for a request is the update that is read from its body. -/
theorem added_of_ofRequest (hbody : StateUpdate.ofRequest a.request.body = .ok u) (hkept : reply = kept) :
    ∃ record, a.request.Posts u ∧ Store.recordOf u = .ok record ∧ s.Adds u a.instant record fs gs := by
  obtain ⟨posted, record, hposts, hrecord, hadds⟩ := added_of_kept h hrespond hkept
  cases hbody.symm.trans hposts.body
  exact ⟨record, hposts, hrecord, hadds⟩

theorem kept_iff (hroot : Store.EmptyRoot fs₀ s.root) (hsite : Store.Site fs₀ s.root)
    (hmethod : a.request.method = "POST") (hpath : pathOf a.request.target = "/api/device-state")
    (htype : a.request.contentType.any MediaType.isJson = true)
    (hbody : StateUpdate.ofRequest a.request.body = .ok u) :
    reply = kept ↔ a.request.body.length ≤ longestBody ∧ Store.checkIds u.namespaceId u.deviceId = .ok ()
      ∧ u.version.toNat ≤ Int64.maxValue.toInt ∧ Store.Fits s.root (u.key a.instant) := by
  constructor
  · intro hkept
    obtain ⟨record, hposts, hrecord, hadds⟩ := added_of_ofRequest h hrespond hbody hkept
    obtain ⟨hk, hupdate⟩ := (Store.recordOf_eq_ok_iff a.instant).1 hrecord
    obtain ⟨place, new, hfind, -⟩ := hadds.file
    exact ⟨hposts.length, (Store.checkIds_eq_ok_iff a.instant).2 hk,
      (DeviceRecord.ofUpdate_eq_ok_iff.1 hupdate).1, Store.fits_of_find hk hfind⟩
  · rintro ⟨hlength, hids, hversion, hfits⟩
    have hk := (Store.checkIds_eq_ok_iff a.instant).1 hids
    have hupdate := DeviceRecord.ofUpdate_eq_ok_iff.2 ⟨hversion, rfl⟩
    have hrecord := (Store.recordOf_eq_ok_iff a.instant).2 ⟨hk, hupdate⟩
    have hposts : a.request.Posts u := ⟨hmethod, hpath, htype, hlength, hbody⟩
    -- The directory and the log of the partition can be attained as they could at the beginning.
    obtain ⟨hs, hsave⟩ := h.save_ok a.marker (hposts.carries hrecord) hrecord
      ((hroot.attainable_iff_fits hsite hk).2 hfits)
    cases hrespond.symm.trans (respond_of_save_ok hposts hsave)
    rfl

end Answered

/-- Requests are answered one after another, below a root with nothing in it at first and with no write that
fails.

If a reply is `kept` then the request has posted an update, and the record of this update is at the end of
its partition; no other file has changed. After any other reply no file has changed at all.

The body of a request with an update is read as this update, in whatever order its members are. One that is
posted is kept if and only if it is not too long, its ids and its version can be kept, and the file system
takes the path of its log. -/
theorem respond_contract (s : Store) {fs₀ : FileSystem} (hroot : Store.EmptyRoot fs₀ s.root)
    (hquiet : fs₀.Quiet) (earlier : List Arrival) (a : Arrival) :
    let fs := served s earlier fs₀
    ∃ reply gs, respond s a.marker a.instant a.request fs = (reply, gs)
      ∧ (reply = kept → ∃ u record, a.request.Posts u ∧ DeviceRecord.ofUpdate u = .ok record
        ∧ s.Adds u a.instant record fs gs)
      ∧ (reply ≠ kept → ∀ place, gs.content? place = fs.content? place)
      ∧ ∀ (u : StateUpdate) (ordered : List (String × Json.Value)), ordered.Perm u.members →
        let body := Utf8.encode (Json.Value.object ordered).render
        StateUpdate.ofRequest body = .ok u
        ∧ (a.request.method = "POST" → pathOf a.request.target = "/api/device-state" →
          a.request.contentType.any MediaType.isJson = true → a.request.body = body →
          (Store.Site fs₀ s.root → (reply = kept ↔ body.length ≤ longestBody
            ∧ Store.checkIds u.namespaceId u.deviceId = .ok () ∧ u.version.toNat ≤ Int64.maxValue.toInt
            ∧ Store.Fits s.root (u.key a.instant)))
          ∧ (reply = kept → ∃ record, DeviceRecord.ofUpdate u = .ok record
            ∧ s.Adds u a.instant record fs gs)) := by
  intro fs
  obtain ⟨records, hready⟩ := exists_ready earlier (hroot.ready hquiet fun _ => True)
  obtain ⟨reply, gs, -, hrespond, -, -⟩ := exists_respond hready a
  refine ⟨reply, gs, hrespond, fun hkept => ?_, content?_of_not_kept hready hrespond,
    fun u ordered hordered => ?_⟩
  · obtain ⟨u, record, hposts, hrecord, hadds⟩ := added_of_kept hready hrespond hkept
    exact ⟨u, record, hposts, ((Store.recordOf_eq_ok_iff a.instant).1 hrecord).2, hadds⟩
  intro body
  have hbody : StateUpdate.ofRequest body = .ok u := u.ofRequest_render hordered
  refine ⟨hbody, fun hmethod hpath htype hsent => ?_⟩
  rw [← hsent] at hbody ⊢
  refine ⟨fun hsite => kept_iff hready hrespond hroot hsite hmethod hpath htype hbody, fun hkept => ?_⟩
  obtain ⟨record, -, hrecord, hadds⟩ := added_of_ofRequest hready hrespond hbody hkept
  exact ⟨record, ((Store.recordOf_eq_ok_iff a.instant).1 hrecord).2, hadds⟩

/-- A request that posts an update, as a device sends it. -/
def posting (u : StateUpdate) : Request :=
  ⟨"POST", "/api/device-state", some "application/json", Utf8.encode u.toRequest.render⟩

theorem body_posting (u : StateUpdate) :
    (posting u).body = Utf8.encode (Json.Value.object u.members).render := by
  simp only [posting, StateUpdate.toRequest_eq]

theorem ofRequest_posting (u : StateUpdate) : StateUpdate.ofRequest (posting u).body = .ok u := by
  rw [body_posting]
  exact u.ofRequest_render (.refl _)

theorem fits_firstCall : Store.Fits ⟨"store"⟩ (SaveCall.firstCall.update.key SaveCall.firstCall.instant) where
  usable := ⟨by decide +kernel, by decide +kernel, by decide +kernel⟩
  names := by decide +kernel

/-- The same update is posted twice, and kept both times. -/
theorem respond_contract_samePosts :
    let s : Store := ⟨⟨"store"⟩, .standard⟩
    let u := SaveCall.firstCall.update
    let a : Arrival := ⟨.numbered 1, SaveCall.firstCall.instant, posting u⟩
    let fs := served s [a] Store.emptyStore
    (Store.EmptyRoot Store.emptyStore s.root ∧ Store.emptyStore.Quiet)
    ∧ ∃ record gs, respond s a.marker a.instant a.request fs = (kept, gs)
      ∧ DeviceRecord.ofUpdate u = .ok record ∧ s.Adds u a.instant record fs gs := by
  intro s u a fs
  have hquiet : Store.emptyStore.Quiet := ⟨rfl, by decide⟩
  have hsite : Store.Site Store.emptyStore s.root := Store.site_of_isDirectory (by decide)
  have hids : Store.checkIds "ns" "dev" = .ok () := rfl
  obtain ⟨reply, gs, hrespond, -, -, hposted⟩ := respond_contract s Store.emptyRoot_emptyStore hquiet [a] a
  obtain ⟨-, hanswered⟩ := hposted u u.members (.refl _)
  obtain ⟨hkept, hadds⟩ := hanswered rfl (by decide +kernel) (by decide +kernel) (body_posting u)
  obtain rfl := (hkept hsite).2 ⟨by decide +kernel, hids, by decide, fits_firstCall⟩
  obtain ⟨record, hupdate, hadds⟩ := hadds rfl
  exact ⟨⟨Store.emptyRoot_emptyStore, hquiet⟩, record, gs, hrespond, hupdate, hadds⟩

/-- An update with a device id of some length. -/
def longUpdate (length : Nat) : StateUpdate :=
  { SaveCall.firstCall.update with deviceId := String.ofList (List.replicate length 'a') }

theorem length_longUpdate (length : Nat) : (Utf8.encode (longUpdate length).deviceId).length = length := by
  simp only [longUpdate, Utf8.encode]
  rw [String.toList_ofList, List.length_flatMap, List.map_replicate, show (Utf8.encodeChar 'a').length = 1 by decide]
  exact (List.sum_replicate_nat).trans (Nat.mul_one length)

theorem checkIds_longUpdate {length : Nat} (h : 2 < length) :
    Store.checkIds (longUpdate length).namespaceId (longUpdate length).deviceId = .ok () := by
  have hne : ∀ s : String, (Utf8.encode s).length ≤ 2 → (longUpdate length).deviceId ≠ s := by
    rintro s hs rfl
    rw [length_longUpdate] at hs
    exact Nat.not_le.2 h hs
  have hdots : ¬((longUpdate length).deviceId = "." ∨ (longUpdate length).deviceId = "..") :=
    not_or.2 ⟨hne _ (by decide), hne _ (by decide)⟩
  have hclean : (longUpdate length).deviceId.toList.any isSeparator = false := by
    simp only [longUpdate]
    rw [String.toList_ofList, List.any_replicate]
    split <;> decide
  have hdevice : IdKind.deviceId.check (longUpdate length).deviceId = .ok () := by
    simp only [IdKind.check]
    rw [if_neg (hne _ (by decide)), if_neg hdots, hclean]
    rfl
  have hnamespace : IdKind.namespaceId.check "ns" = .ok () := rfl
  exact (Store.checkIds_eq_ok_iff SaveCall.firstCall.instant).2 ⟨hnamespace, hdevice⟩

/-- An update is not kept if its device id is longer than any name can be, though its ids and its version can
be kept. -/
theorem not_kept_longUpdate {s : Store} (hroot : Store.EmptyRoot fs₀ s.root) (hquiet : fs₀.Quiet)
    {length : Nat} (hlength : longestName < length) :
    (respond s marker instant (posting (longUpdate length)) fs₀).1 ≠ kept := by
  intro hkept
  have hready := hroot.ready hquiet fun _ => True
  obtain ⟨record, -, hrecord, hadds⟩ := added_of_ofRequest
    (a := ⟨marker, instant, posting (longUpdate length)⟩) hready rfl (ofRequest_posting _) hkept
  obtain ⟨place, new, hfind, -⟩ := hadds.file
  have hk := ((Store.recordOf_eq_ok_iff instant).1 hrecord).1
  -- The log would have been found, though a name in its path is too long.
  have hmem : (longUpdate length).deviceId ∈ ((longUpdate length).key instant).names :=
    List.mem_cons_of_mem _ List.mem_cons_self
  have hshort := (Store.fits_of_find hk hfind).names _ hmem
  rw [length_longUpdate] at hshort
  exact absurd hshort (Nat.not_le.2 hlength)

/-- Not every update is kept that is posted and whose ids and version can be. -/
theorem respond_contract_longId :
    let s : Store := ⟨⟨"store"⟩, .standard⟩
    let u := longUpdate 300
    Store.EmptyRoot Store.emptyStore s.root ∧ Store.emptyStore.Quiet
      ∧ StateUpdate.ofRequest (posting u).body = .ok u
      ∧ Store.checkIds u.namespaceId u.deviceId = .ok () ∧ u.version.toNat ≤ Int64.maxValue.toInt
      ∧ (respond s (.numbered 1) SaveCall.firstCall.instant (posting u) Store.emptyStore).1 ≠ kept := by
  have hquiet : Store.emptyStore.Quiet := ⟨rfl, by decide⟩
  exact ⟨Store.emptyRoot_emptyStore, hquiet, ofRequest_posting _, checkIds_longUpdate (by decide), by decide,
    not_kept_longUpdate Store.emptyRoot_emptyStore hquiet (by decide)⟩

end DeviceLog.Http
