import DeviceLog.Proofs.Device.Record
import DeviceLog.Proofs.Json.Number
import DeviceLog.Proofs.Json.Size
import DeviceLog.Proofs.Log.Content
import DeviceLog.Proofs.Schema.Document
import DeviceLog.Proofs.Text.Base64
import DeviceLog.Service.Http

/-! # Bodies of requests

* `StateUpdate.ofRequest_render`: an update is read back from its request, whatever the order of the members
  is. Its blobs are any bytes.
* `StateUpdate.carries_of_ofRequest`: what is in a body that is not too long can be written, with every codec.
-/

namespace DeviceLog

namespace StateUpdate

open Json

/-! ## Members -/

def members (u : StateUpdate) : List (String × Json.Value) :=
  [("deviceId", .text u.deviceId), ("namespaceId", .text u.namespaceId), ("version", .integer u.version.toNat),
    ("reportedState", .text (blobText u.reported)), ("desiredState", .text (blobText u.desired))]

theorem toRequest_eq (u : StateUpdate) : u.toRequest = .object u.members := rfl

/-- What has been read of an update once the members with some names have been. -/
def having (u : StateUpdate) (names : List String) : Draft where
  deviceId := if "deviceId" ∈ names then some u.deviceId else none
  namespaceId := if "namespaceId" ∈ names then some u.namespaceId else none
  version := if "version" ∈ names then some u.version else none
  reported := if "reportedState" ∈ names then some u.reported else none
  desired := if "desiredState" ∈ names then some u.desired else none

theorem reads_blob (bytes : Bytes) : Decoder.Reads blob [.text (some (blobText bytes))] bytes := by
  intro rest
  show blob (.text (some (blobText bytes)) :: rest) = _
  simp only [blob, Decoder.text, blobText, Base64.encode_decodeLossy, Base64.decode_encode]

/-- Each member is found by its name and sets its part of the draft. -/
theorem adds (u : StateUpdate) : ∀ m ∈ u.members, requestLayout.Adds u.having (m.1, m.2.tokens) := by
  simp only [members, List.forall_mem_cons]
  refine ⟨?_, ?_, ?_, ?_, ?_, nofun⟩
  · exact Layout.adds_of_find rfl (fun names h => by simp [having, h]) fun names =>
      (Decoder.reads_text u.deviceId).map (by simp [having])
  · exact Layout.adds_of_find rfl (fun names h => by simp [having, h]) fun names =>
      (Decoder.reads_text u.namespaceId).map (by simp [having])
  · exact Layout.adds_of_find rfl (fun names h => by simp [having, h]) fun names =>
      Decoder.Reads.map (unsigned_ofInt u.version) (by simp [having])
  · exact Layout.adds_of_find rfl (fun names h => by simp [having, h]) fun names =>
      (reads_blob u.reported).map (by simp [having])
  · exact Layout.adds_of_find rfl (fun names h => by simp [having, h]) fun names =>
      (reads_blob u.desired).map (by simp [having])

theorem finish_having (u : StateUpdate) {names : List String} (h : ∀ m ∈ u.members, m.1 ∈ names)
    (rest : List Token) : requestLayout.finish (u.having names) rest = (.ok u, rest) := by
  simp only [members, List.forall_mem_cons] at h
  obtain ⟨hdevice, hnamespace, hversion, hreported, hdesired, -⟩ := h
  have hdraft : u.having names
      = ⟨some u.deviceId, some u.namespaceId, some u.version, some u.reported, some u.desired⟩ := by
    simp [having, hdevice, hnamespace, hversion, hreported, hdesired]
  rw [hdraft]
  rfl

theorem reads_object (u : StateUpdate) {ordered : List (String × Json.Value)} (h : ordered.Perm u.members) :
    Decoder.Reads requestLayout.read (Json.Value.object ordered).tokens u := by
  rw [Json.Value.tokens_object]
  have htokens := h.map fun m => (m.1, m.2.tokens)
  rw [← List.append_nil (u.members.map _)] at htokens
  have hnames : ["deviceId", "namespaceId", "version", "reportedState", "desiredState"].Nodup := by decide
  exact Layout.reads_object htokens rfl (List.forall_mem_map.2 u.adds) nofun hnames fun names rest hall =>
    u.finish_having (fun m hm => hall (m.1, m.2.tokens) (List.mem_map_of_mem hm)) rest

/-- An update is read back from its request, whatever the order of the members is. -/
theorem ofRequest_render (u : StateUpdate) {ordered : List (String × Json.Value)} (h : ordered.Perm u.members) :
    ofRequest (Utf8.encode (Json.Value.object ordered).render) = .ok u := by
  have hreads := u.reads_object h
  rw [← Json.Value.ofBytes_render] at hreads
  exact hreads.decode

/-! ## Sizes -/

/-- What has been read of an update takes so many bytes at most, text by text. -/
structure Draft.Within (most : Nat) (d : Draft) : Prop where
  deviceId : ∀ s ∈ d.deviceId, s.utf8ByteSize ≤ most
  namespaceId : ∀ s ∈ d.namespaceId, s.utf8ByteSize ≤ most
  reported : ∀ bytes ∈ d.reported, bytes.length ≤ most + 3
  desired : ∀ bytes ∈ d.desired, bytes.length ≤ most + 3

/-- The texts and blobs of an update take so many bytes at most. -/
structure Within (most : Nat) (u : StateUpdate) : Prop where
  deviceId : u.deviceId.utf8ByteSize ≤ most
  namespaceId : u.namespaceId.utf8ByteSize ≤ most
  reported : u.reported.length ≤ most + 3
  desired : u.desired.length ≤ most + 3

variable {most : Nat}

theorem yields_blob : Decoder.Yields (Token.Within most) (fun bytes => bytes.length ≤ most + 3) blob := by
  intro tokens rest bytes htokens heq
  unfold blob at heq
  split at heq
  · cases heq
  · rename_i s rest' htext
    obtain ⟨hs, hrest⟩ := Decoder.yields_text htokens htext
    split at heq
    · rename_i hdecode
      cases heq
      have hlength := Base64.length_decode_le hdecode
      rw [Utf8.length_encode] at hlength
      exact ⟨by omega, hrest⟩
    · cases heq

theorem yields_members : ∀ m ∈ requestLayout.members, ∀ draft : Draft, draft.Within most →
    Decoder.Yields (Token.Within most) (Draft.Within most) (m.read draft) := by
  intro m hm draft h
  simp only [requestLayout, List.mem_cons, List.not_mem_nil, or_false] at hm
  rcases hm with rfl | rfl | rfl | rfl | rfl
  · exact Decoder.yields_text.bind fun s hs => .done { h with deviceId := by rintro _ ⟨⟩; exact hs }
  · exact Decoder.yields_text.bind fun s hs => .done { h with namespaceId := by rintro _ ⟨⟩; exact hs }
  · exact Decoder.yields_unsigned.bind fun _ _ => .done { h with }
  · exact yields_blob.bind fun bytes hbytes => .done { h with reported := by rintro _ ⟨⟩; exact hbytes }
  · exact yields_blob.bind fun bytes hbytes => .done { h with desired := by rintro _ ⟨⟩; exact hbytes }

theorem within_build {draft : Draft} {u : StateUpdate} (h : draft.Within most)
    (hu : requestLayout.build draft = some u) : u.Within most := by
  obtain ⟨deviceId, hdevice, hu⟩ := Option.bind_eq_some_iff.1 hu
  obtain ⟨namespaceId, hnamespace, hu⟩ := Option.bind_eq_some_iff.1 hu
  cases hu
  have hblob : ∀ {blob : Option Bytes}, (∀ bytes ∈ blob, bytes.length ≤ most + 3) →
      (blob.getD []).length ≤ most + 3 := by
    intro blob hbytes
    cases blob with
    | none => exact Nat.zero_le _
    | some bytes => exact hbytes bytes rfl
  exact ⟨h.deviceId _ hdevice, h.namespaceId _ hnamespace, hblob h.reported, hblob h.desired⟩

/-- What is in the body of a request takes space in proportion to the body. -/
theorem within_of_ofRequest {body : Bytes} {u : StateUpdate} (h : ofRequest body = .ok u) :
    u.Within (16 * body.length) :=
  good_of_decode (Layout.yields_read ⟨nofun, nofun, nofun, nofun⟩ yields_members fun _ _ => within_build) h

/-- What is in a body that is not too long can be written, with every codec. -/
theorem carries_of_ofRequest {body : Bytes} {u : StateUpdate} {record : DeviceRecord}
    (hbody : body.length ≤ Http.longestBody) (h : ofRequest body = .ok u)
    (hrecord : DeviceRecord.ofUpdate u = .ok record) (codec : Codec) : codec.Carries record.toDatum.bytes := by
  obtain ⟨hdevice, hnamespace, hreported, hdesired⟩ := within_of_ofRequest h
  obtain ⟨-, rfl⟩ := DeviceRecord.ofUpdate_eq_ok_iff.1 hrecord
  have hreported' := Utf8.utf8ByteSize_decodeLossy_le u.reported
  have hdesired' := Utf8.utf8ByteSize_decodeLossy_le u.desired
  refine Codec.carries_of_length_lt (Nat.lt_of_le_of_lt (DeviceRecord.length_bytes_le _) ?_) codec
  simp only [Http.longestBody] at hbody
  simp only
  omega

end StateUpdate

end DeviceLog
