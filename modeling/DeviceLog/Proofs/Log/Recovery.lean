import DeviceLog.Proofs.Device.Record
import DeviceLog.Proofs.Log.Appender
import DeviceLog.Proofs.Storage.Walk

/-! # Logs that were cut off

Of a log only the first bytes may be left. It is opened again all the same.

* `Header.log h entries` is a log as appenders write it, and `Header.Logs h entries` says what they
  write: `Logs.nil` for a new log and `Logs.concat` for a record more.
* `Appender.open_cut`: part of a header gives way to a new header; part of a block is cut off, and
  the records before it are read together with those that are appended afterwards.
-/

namespace DeviceLog

/-! ## Logs as appenders write them -/

/-- A record of a log, and the codec that its block was made with. Appenders that have opened the log
again make blocks at another level than the one that made the log. -/
structure LogEntry where
  codec : Codec
  datum : Datum

namespace Header

variable {h : Header} {entries : List LogEntry}

def frame (h : Header) (e : LogEntry) : Bytes := (Block.ofDatum e.datum).encode { h with codec := e.codec }

def log (h : Header) (entries : List LogEntry) : Bytes := h.encode ++ entries.flatMap h.frame

/-- Whether appenders write these records to a log with this header. -/
structure Logs (h : Header) (entries : List LogEntry) : Prop where
  writable : h.Writable
  stated : ∀ e ∈ entries, e.codec.stated = h.codec.stated
  fits : ∀ e ∈ entries, h.schema.fault e.datum = none
  carries : ∀ e ∈ entries, e.codec.Carries e.datum.bytes

theorem framed_frame {e : LogEntry} (hstated : e.codec.stated = h.codec.stated)
    (hcarries : e.codec.Carries e.datum.bytes) : (Block.ofDatum e.datum).Framed h.stated (h.frame e) := by
  have hsame : ({ h with codec := e.codec } : Header).stated = h.stated := by
    simp only [Header.stated]
    rw [hstated]
  have hframe := Block.framed_ofDatum (h := { h with codec := e.codec }) hcarries
  rwa [hsame] at hframe

theorem length_frame_ge (e : LogEntry) : Marker.size ≤ (h.frame e).length := by
  have hmarker : h.marker.bytes.length = Marker.size := h.marker.length_eq
  simp only [frame, Block.encode, List.length_append]
  omega

namespace Logs

theorem nil (hw : h.Writable) : h.Logs [] := ⟨hw, nofun, nofun, nofun⟩

theorem concat (hl : h.Logs entries) {e : LogEntry} (hstated : e.codec.stated = h.codec.stated)
    (hfits : h.schema.fault e.datum = none) (hcarries : e.codec.Carries e.datum.bytes) :
    h.Logs (entries ++ [e]) where
  writable := hl.writable
  stated := List.forall_mem_append.2 ⟨hl.stated, by simpa using hstated⟩
  fits := List.forall_mem_append.2 ⟨hl.fits, by simpa using hfits⟩
  carries := List.forall_mem_append.2 ⟨hl.carries, by simpa using hcarries⟩

theorem take (hl : h.Logs entries) (j : Nat) : h.Logs (entries.take j) where
  writable := hl.writable
  stated e he := hl.stated e (List.mem_of_mem_take he)
  fits e he := hl.fits e (List.mem_of_mem_take he)
  carries e he := hl.carries e (List.mem_of_mem_take he)

theorem frames (hl : h.Logs entries) :
    h.stated.Frames ((entries.map LogEntry.datum).map Block.ofDatum) (entries.flatMap h.frame) := by
  have hframed : ∀ e ∈ entries, (Block.ofDatum e.datum).Framed h.stated (h.frame e) := fun e he =>
    framed_frame (hl.stated e he) (hl.carries e he)
  clear hl
  induction entries with
  | nil => exact .nil
  | cons e rest ih =>
    simp only [List.map_cons, List.flatMap_cons]
    exact .cons (hframed e List.mem_cons_self) (ih fun d hd => hframed d (List.mem_cons_of_mem e hd))

theorem isLog (hl : h.Logs entries) : IsLog h.stated (entries.map LogEntry.datum) (h.log entries) where
  layout := ⟨h.encode, entries.flatMap h.frame, rfl, Header.reads_encode hl.writable, hl.frames⟩
  stated := by
    simp only [Header.stated]
    rw [Codec.stated_stated]
  records_fit d hd := by
    obtain ⟨e, he, rfl⟩ := List.mem_map.1 hd
    exact ⟨hl.fits e he, (hl.carries e he).own⟩

end Logs

end Header

/-! ## What is left of a log -/

/-- The first bytes of pieces that are not empty are the pieces that lie wholly within them, and part
of the next one. -/
theorem exists_take_flatMap {α : Type} {f : α → Bytes} : ∀ {pieces : List α},
    (∀ a ∈ pieces, 0 < (f a).length) → ∀ {n : Nat}, n ≤ (pieces.flatMap f).length →
    ∃ j ≤ pieces.length, ∃ part, (pieces.flatMap f).take n = (pieces.take j).flatMap f ++ part
      ∧ (∀ i ≤ pieces.length, ((pieces.take i).flatMap f).length ≤ n → i ≤ j)
      ∧ (part = [] ∨ ∃ a ∈ pieces, ∃ m, 0 < m ∧ m < (f a).length ∧ part = (f a).take m)
  | [], _, n, hn => by
    refine ⟨0, Nat.le_refl 0, [], ?_, fun i hi _ => hi, .inl rfl⟩
    simp
  | a :: rest, hpos, n, hn => by
    have hposa := hpos a List.mem_cons_self
    rw [List.flatMap_cons, List.length_append] at hn
    rcases Nat.lt_or_ge n (f a).length with hlt | hge
    · -- Not even the first piece is whole.
      refine ⟨0, Nat.zero_le _, (f a).take n, ?_, fun i _ hle => ?_, ?_⟩
      · rw [List.flatMap_cons, List.take_append_of_le_length (Nat.le_of_lt hlt)]
        simp
      · cases i with
        | zero => exact Nat.le_refl 0
        | succ i =>
          rw [List.take_succ_cons, List.flatMap_cons, List.length_append] at hle
          omega
      · rcases Nat.eq_zero_or_pos n with rfl | hn0
        · exact .inl rfl
        · exact .inr ⟨a, List.mem_cons_self, n, hn0, hlt, rfl⟩
    · obtain ⟨j, hj, part, htake, hmost, hpart⟩ :=
        exists_take_flatMap (fun b hb => hpos b (List.mem_cons_of_mem a hb))
          (show n - (f a).length ≤ (rest.flatMap f).length by omega)
      refine ⟨j + 1, Nat.succ_le_succ hj, part, ?_, fun i hi hle => ?_, ?_⟩
      · rw [List.flatMap_cons, List.take_append, List.take_of_length_le hge, htake,
          List.take_succ_cons, List.flatMap_cons, List.append_assoc]
      · cases i with
        | zero => exact Nat.zero_le _
        | succ i =>
          rw [List.take_succ_cons, List.flatMap_cons, List.length_append] at hle
          exact Nat.succ_le_succ (hmost i (Nat.le_of_succ_le_succ hi) (by omega))
      · rcases hpart with hnone | ⟨b, hb, hcut⟩
        · exact .inl hnone
        · exact .inr ⟨b, List.mem_cons_of_mem a hb, hcut⟩

namespace Header

variable {h : Header} {entries : List LogEntry} {k : Nat}

theorem log_concat (h : Header) (entries : List LogEntry) (e : LogEntry) :
    h.log (entries ++ [e]) = h.log entries ++ h.frame e := by
  simp [log]

/-- Of a header that is cut off it is told that the data end too early, and its first bytes are still
those of a log. -/
theorem cut_header (hw : h.Writable) (hk : k < h.encode.length) :
    (h.log entries).take k = h.encode.take k
      ∧ (∃ rest, read (h.encode.take k) = (.error .endOfData, rest))
      ∧ Appender.mayBegin (h.encode.take k) = true := by
  refine ⟨?_, (reads_encode hw).cut k hk, ?_⟩
  · simp only [log]
    rw [List.take_append_of_le_length (Nat.le_of_lt hk)]
  · -- Cutting off and taking the first bytes may change places.
    have hmagic : (h.encode.take k).take magic.length = magic.take k := by
      simp only [encode, encodeFront]
      rw [List.take_take, Nat.min_comm, ← List.take_take]
      simp only [List.append_assoc, List.take_left]
    simp only [Appender.mayBegin]
    rw [hmagic, List.isPrefixOf_iff_prefix]
    exact List.take_prefix k magic

end Header

namespace Appender

variable {h : Header} {entries : List LogEntry} {schema : Schema} {fs : FileSystem} {path : Path}
  {place : Place}

/-- What is left of a block does not count as whole, unless it ends in the marker. -/
theorem looksWhole_torn {part body content : Bytes} (hpart : part ≠ [])
    (hends : ¬h.marker.bytes <:+ content) (hbody : body ++ part <:+ content) :
    looksWhole h (body ++ part) = false := by
  simp only [looksWhole]
  rw [decide_eq_false_iff_not]
  rintro (hempty | ⟨_, hdrop⟩)
  · exact hpart (List.append_eq_nil_iff.1 hempty).2
  · -- What counts as whole ends in the marker, and so would the whole content.
    refine hends (List.IsSuffix.trans ?_ hbody)
    rw [← hdrop]
    exact List.drop_suffix _ _

/-- A log of which part of a block is left is opened as the log without that part. -/
theorem resume_cut {entries : List LogEntry} {part : Bytes} (path : Path) (hl : h.Logs entries)
    (hfields : h.schema.fields = schema.fields)
    (hpart : part = [] ∨ (¬h.marker.bytes <:+ h.log entries ++ part)
      ∧ ∃ b frame m, Block.Framed h.stated b frame ∧ 0 < m ∧ m < frame.length ∧ part = frame.take m)
    (hfile : fs.content? place = some (h.log entries ++ part)) :
    ∃ gs, resume path place h.stated (h.log entries ++ part) (entries.flatMap h.frame ++ part) schema fs
        = (.ok ⟨path, place, h.stated, (h.log entries).length, false, 0⟩, gs)
      ∧ fs.Rewrites gs place (h.log entries) := by
  rcases hpart with rfl | ⟨hends, b, frame, m, hframe, hpos, hm, rfl⟩
  · -- Nothing is torn: the log is opened as it is.
    rw [List.append_nil] at hfile
    have hwhole : looksWhole h.stated (entries.flatMap h.frame) = true := by
      obtain ⟨body, hread, _, hwhole, _⟩ := hl.isLog.exists_body
      have hread' := (Header.reads_encode hl.writable).whole (entries.flatMap h.frame)
      rw [Header.log, hread'] at hread
      cases hread
      exact hwhole
    have hlength : (entries.flatMap h.frame).length ≤ (h.log entries).length := by
      rw [Header.log, List.length_append]
      exact Nat.le_add_left _ _
    rw [List.append_nil, List.append_nil, resume_eq (h := h.stated) hfields hwhole hlength]
    exact ⟨fs, rfl, .refl hfile⟩
  · have htorn : looksWhole h.stated (entries.flatMap h.frame ++ frame.take m) = false := by
      refine looksWhole_torn (h := h.stated) ?_ hends ?_
      · intro hnil
        have := congrArg List.length hnil
        rw [List.length_take, List.length_nil] at this
        omega
      · rw [Header.log, List.append_assoc]
        exact List.suffix_append _ _
    have hkept : (h.log entries ++ frame.take m).length - (entries.flatMap h.frame ++ frame.take m).length
        + keptOf h.stated (entries.flatMap h.frame ++ frame.take m) = (h.log entries).length := by
      simp only [keptOf]
      rw [htorn, if_neg Bool.false_ne_true, Header.intact_torn hl.frames hframe hpos hm]
      simp only [Header.log, List.length_append]
      omega
    obtain ⟨gs, hset, hrewrites⟩ := FileSystem.setLength_rewrites hfile
      (show (h.log entries).length ≤ (h.log entries ++ frame.take m).length by simp)
    rw [List.take_left] at hrewrites
    simp only [resume]
    rw [Schema.difference_eq_none_iff.2 (show h.stated.schema.fields = schema.fields from hfields)]
    simp only [hkept, htorn, Bool.false_eq_true, if_false, hset]
    exact ⟨gs, rfl, hrewrites⟩

/-! ## Opening again -/

theorem exists_create (path : Path) (header : Header) (hempty : fs.content? place = some [])
    (hquiet : fs.Quiet) :
    ∃ gs, create path place header fs = (.ok ⟨path, place, header, 0, true, 0⟩, gs)
      ∧ fs.Rewrites gs place header.encode := by
  obtain ⟨gs, hcreated | ⟨_, hloud, _⟩⟩ := create_cases path header hempty
  · exact ⟨gs, hcreated⟩
  · exact absurd hquiet hloud

/-- A log with part of its header is opened as a new one. -/
theorem open_cut_header {k : Nat} (hl : h.Logs entries) (hk : k < h.encode.length)
    (hfind : fs.findForFile path = .ok place)
    (hfile : fs.entry? place = some (.file ((h.log entries).take k))) (hquiet : fs.Quiet) (codec : Codec)
    (marker : Marker) :
    ∃ gs, Appender.open path schema codec marker fs
        = (.ok ⟨path, place, Header.new schema codec marker, 0, true, 0⟩, gs)
      ∧ fs.Rewrites gs place (Header.new schema codec marker).encode := by
  obtain ⟨htake, ⟨rest, hread⟩, hbegin⟩ := Header.cut_header hl.writable hk
  rw [htake] at hfile
  have hcontent := FileSystem.content?_of_file hfile
  simp only [«open»]
  rw [FileSystem.openFile_of_file hfind hfile]
  simp only [hcontent, Option.getD_some]
  -- A file that is empty is treated as new; other parts of a header are thrown away first.
  by_cases hempty : h.encode.take k = []
  · rw [if_pos hempty]
    rw [hempty] at hcontent
    exact exists_create path _ hcontent hquiet
  · rw [if_neg hempty, hread]
    obtain ⟨fs₁, hset, hrewrites₁⟩ := FileSystem.setLength_rewrites hcontent (Nat.zero_le _)
    obtain ⟨gs, hopened, hrewrites⟩ :=
      exists_create path _ hrewrites₁.content?_self (hquiet.rewrites hrewrites₁)
    simp only [hbegin, if_true, hset]
    exact ⟨gs, hopened, hrewrites₁.trans hrewrites⟩

theorem open_cut_body {part : Bytes} (hl : h.Logs entries) (hfields : h.schema.fields = schema.fields)
    (hpart : part = [] ∨ (¬h.marker.bytes <:+ h.log entries ++ part)
      ∧ ∃ b frame m, Block.Framed h.stated b frame ∧ 0 < m ∧ m < frame.length ∧ part = frame.take m)
    (hfind : fs.findForFile path = .ok place)
    (hfile : fs.entry? place = some (.file (h.log entries ++ part))) (codec : Codec) (marker : Marker) :
    ∃ gs, Appender.open path schema codec marker fs
        = (.ok ⟨path, place, h.stated, (h.log entries).length, false, 0⟩, gs)
      ∧ fs.Rewrites gs place (h.log entries) := by
  have hcontent := FileSystem.content?_of_file hfile
  have hne : h.log entries ++ part ≠ [] := fun hnil =>
    hl.isLog.ne_nil (List.append_eq_nil_iff.1 hnil).1
  have hread : Header.read (h.log entries ++ part) = (.ok h.stated, entries.flatMap h.frame ++ part) := by
    rw [Header.log, List.append_assoc]
    exact (Header.reads_encode hl.writable).whole _
  simp only [«open»]
  rw [FileSystem.openFile_of_file hfind hfile]
  simp only [hcontent, Option.getD_some]
  rw [if_neg hne, hread]
  exact resume_cut path hl hfields hpart hcontent

theorem append_close_log {a : Appender} (hplace : a.place = place) (hheader : a.header = h.stated)
    (hkept : a.kept ≤ (h.log entries).length) (hfile : fs.content? place = some (h.log entries))
    (hquiet : fs.Quiet) {d : Datum} (hfits : h.schema.fault d = none) :
    ∃ a' hs ks, append d (a, fs) = (.ok (), a', hs) ∧ a'.close hs = (.ok (), ks)
      ∧ fs.Rewrites ks place (h.log (entries ++ [⟨h.codec.stated, d⟩])) := by
  subst hplace
  have hfault : a.header.schema.fault d = none := by
    rw [hheader]
    exact hfits
  obtain ⟨hs, ⟨happend, hrewrites⟩ | ⟨_, hloud, _⟩⟩ := append_cases hfile hkept hfault
  · -- The block of the record is made at the level that the header states.
    rw [hheader] at hrewrites
    have hlog : h.log entries ++ (Block.ofDatum d).encode h.stated
        = h.log (entries ++ [⟨h.codec.stated, d⟩]) := by
      rw [h.log_concat]
      rfl
    rw [hlog] at hrewrites
    have hkept' : a.kept ≤ (h.log (entries ++ [⟨h.codec.stated, d⟩])).length := by
      rw [h.log_concat, List.length_append]
      exact Nat.le_trans hkept (Nat.le_add_right _ _)
    obtain ⟨ks, ⟨hclose, hrewrites'⟩ | ⟨_, hloud, _⟩⟩ :=
      close_cases (a := { a with appended := a.appended + 1 }) hrewrites.content?_self hkept'
    · exact ⟨_, hs, ks, happend, hclose, hrewrites.trans hrewrites'⟩
    · exact absurd (hquiet.rewrites hrewrites) hloud
  · exact absurd hquiet hloud

/-- What is appended to a whole log is read after its records. -/
theorem append_close_load {a : Appender} (hl : h.Logs entries) (hplace : a.place = place)
    (hheader : a.header = h.stated) (hkept : a.kept ≤ (h.log entries).length)
    (hfile : fs.content? place = some (h.log entries)) (hquiet : fs.Quiet)
    (hfind : fs.find path = .ok place) {d : Datum} (hfits : h.schema.fault d = none)
    (hcarries : h.codec.stated.Carries d.bytes) :
    ∃ a' hs ks contents, append d (a, fs) = (.ok (), a', hs) ∧ a'.close hs = (.ok (), ks)
      ∧ ks.entry? place = some (.file (h.log (entries ++ [⟨h.codec.stated, d⟩])))
      ∧ Contents.load ks path = .ok contents
      ∧ contents.values = .ok (entries.map LogEntry.datum ++ [d]) := by
  obtain ⟨a', hs, ks, happend, hclose, hrewrites⟩ :=
    append_close_log hplace hheader hkept hfile hquiet hfits
  have hafter : ks.entry? place = some (.file (h.log (entries ++ [⟨h.codec.stated, d⟩]))) := by
    rw [hrewrites.entry, if_pos rfl]
  have hgrows := hrewrites.grows (FileSystem.ne_directory_of_content? hfile)
  have hlog := (hl.concat (e := ⟨h.codec.stated, d⟩) (Codec.stated_stated _) hfits hcarries).isLog
  obtain ⟨contents, hload, -, hvalues⟩ := hlog.exists_load (hgrows.find hfind) hafter
  refine ⟨a', hs, ks, contents, happend, hclose, hafter, hload, ?_⟩
  rw [hvalues, List.map_append]
  rfl

/-- Of a log with all of its header there are whole blocks left, and perhaps part of the next one. -/
theorem exists_take_log (hl : h.Logs entries) {k : Nat} (hge : h.encode.length ≤ k)
    (hk : k ≤ (h.log entries).length)
    (hmarker : h.marker.bytes <:+ (h.log entries).take k →
      ∃ i ≤ entries.length, k = (h.log (entries.take i)).length) :
    ∃ j ≤ entries.length, ∃ part, (h.log entries).take k = h.log (entries.take j) ++ part
      ∧ (∀ i ≤ entries.length, (h.log (entries.take i)).length ≤ k → i ≤ j)
      ∧ (part = [] ∨ (¬h.marker.bytes <:+ h.log (entries.take j) ++ part)
        ∧ ∃ b frame m, Block.Framed h.stated b frame ∧ 0 < m ∧ m < frame.length
          ∧ part = frame.take m) := by
  have hlength : ∀ i, (h.log (entries.take i)).length
      = h.encode.length + ((entries.take i).flatMap h.frame).length := fun i => List.length_append
  rw [Header.log, List.length_append] at hk
  have hbody : k - h.encode.length ≤ (entries.flatMap h.frame).length := by omega
  obtain ⟨j, hj, part, htake, hmost, hpart⟩ :=
    exists_take_flatMap (f := h.frame)
      (fun e _ => Nat.lt_of_lt_of_le (by decide) (Header.length_frame_ge e)) hbody
  have hleft : (h.log entries).take k = h.log (entries.take j) ++ part := by
    rw [Header.log, List.take_append, List.take_of_length_le hge, htake, Header.log, List.append_assoc]
  have hsize : k = (h.log (entries.take j)).length + part.length := by
    have := congrArg List.length hleft
    rw [List.length_take, List.length_append, Header.log, List.length_append] at this
    omega
  refine ⟨j, hj, part, hleft, fun i hi hle => hmost i hi (by rw [hlength] at hle; omega), ?_⟩
  rcases hpart with hnone | ⟨e, he, m, hpos, hm, rfl⟩
  · exact .inl hnone
  · -- A part of a block is not whole, so the cut does not fall between two blocks.
    refine .inr ⟨fun hsuffix => ?_, _, h.frame e, m,
      Header.framed_frame (hl.stated e he) (hl.carries e he), hpos, hm, rfl⟩
    rw [← hleft] at hsuffix
    obtain ⟨i, hi, hcut⟩ := hmarker hsuffix
    have hle := hmost i hi (by rw [hlength] at hcut; omega)
    -- Fewer blocks are shorter, and then the part would be empty.
    have hsub : (h.log (entries.take i)).length ≤ (h.log (entries.take j)).length := by
      rw [hlength, hlength, ← List.take_append_drop i (entries.take j), List.take_take,
        Nat.min_eq_left hle, List.flatMap_append, List.length_append]
      omega
    rw [List.length_take] at hsize
    omega

/-- Of a log only the first `k` bytes are left, and they end in the marker only if the cut falls
between two blocks. Then the log is opened again. Part of a header gives way to a new header.
Otherwise the log is what it was up to the last block that is whole, and a record that is appended is
read after the records of these blocks. -/
theorem open_cut {h : Header} {entries : List LogEntry} {schema : Schema} {fs : FileSystem} {path : Path}
    {place : Place} {k : Nat} (hl : h.Logs entries) (hfields : h.schema.fields = schema.fields)
    (hk : k ≤ (h.log entries).length)
    (hmarker : h.encode.length ≤ k → h.marker.bytes <:+ (h.log entries).take k →
      ∃ i ≤ entries.length, k = (h.log (entries.take i)).length)
    (hfind : fs.findForFile path = .ok place)
    (hfile : fs.entry? place = some (.file ((h.log entries).take k))) (hquiet : fs.Quiet) (codec : Codec)
    (marker : Marker) :
    ∃ a gs, Appender.open path schema codec marker fs = (.ok a, gs)
      ∧ (k < h.encode.length → a.created = true
        ∧ gs.entry? place = some (.file (Header.new schema codec marker).encode))
      ∧ (h.encode.length ≤ k → a.created = false ∧ ∃ j ≤ entries.length,
        (h.log (entries.take j)).length ≤ k
        ∧ (∀ i ≤ entries.length, (h.log (entries.take i)).length ≤ k → i ≤ j)
        ∧ gs.entry? place = some (.file (h.log (entries.take j)))
        ∧ ∀ d, schema.fault d = none → h.codec.stated.Carries d.bytes →
          ∃ a' hs ks contents, append d (a, gs) = (.ok (), a', hs) ∧ a'.close hs = (.ok (), ks)
            ∧ ks.entry? place = some (.file (h.log (entries.take j ++ [⟨h.codec.stated, d⟩])))
            ∧ Contents.load ks path = .ok contents
            ∧ contents.values = .ok ((entries.take j).map LogEntry.datum ++ [d])) := by
  rcases Nat.lt_or_ge k h.encode.length with hlt | hge
  · obtain ⟨gs, hopen, hrewrites⟩ := open_cut_header hl hlt hfind hfile hquiet codec marker
    refine ⟨_, gs, hopen, fun _ => ⟨rfl, ?_⟩, fun hge => absurd hge (Nat.not_le_of_lt hlt)⟩
    rw [hrewrites.entry, if_pos rfl]
  · obtain ⟨j, hj, part, hleft, hmost, hpart⟩ := exists_take_log hl hge hk (hmarker hge)
    have hwithin : (h.log (entries.take j)).length ≤ k := by
      have hlength := congrArg List.length hleft
      rw [List.length_take_of_le hk, List.length_append] at hlength
      omega
    rw [hleft] at hfile
    obtain ⟨gs, hopen, hrewrites⟩ :=
      open_cut_body (hl.take j) hfields hpart hfind hfile codec marker
    have hgrows := hrewrites.grows (by rw [hfile]; simp)
    refine ⟨_, gs, hopen, fun hlt => absurd hlt (Nat.not_lt_of_le hge),
      fun _ => ⟨rfl, j, hj, hwithin, hmost, ?_, fun d hfits hcarries => ?_⟩⟩
    · rw [hrewrites.entry, if_pos rfl]
    · have hfits' : h.schema.fault d = none := by
        rw [Schema.fault_eq_none_iff] at hfits ⊢
        rw [hfields, hfits]
      exact append_close_load (hl.take j) rfl rfl (Nat.le_refl _) hrewrites.content?_self (hquiet.rewrites hrewrites)
        (hgrows.find (FileSystem.find_of_findForFile hfind)) hfits' hcarries

def plainHeader : Header := .new DeviceRecord.schema .null (.numbered 0)

def plainEntry : LogEntry := ⟨.null, DeviceRecord.toDatum ⟨"dev", 1, "ns", "", ""⟩⟩

theorem logs_plain : plainHeader.Logs [plainEntry, plainEntry] := by
  have hcarries : plainEntry.codec.Carries plainEntry.datum.bytes :=
    Codec.carries_null (Nat.lt_of_le_of_lt (DeviceRecord.length_bytes_le _) (by decide))
  have hfits : plainHeader.schema.fault plainEntry.datum = none := DeviceRecord.fault_toDatum _
  exact ((Header.Logs.nil (DeviceRecord.writable_header _ _)).concat rfl hfits hcarries).concat rfl hfits
    hcarries

def cutLog (k : Nat) : FileSystem where
  entries := [(["log"], .file ((plainHeader.log [plainEntry, plainEntry]).take k))]

theorem log_plain : plainHeader.log [plainEntry, plainEntry]
    = plainHeader.log [plainEntry] ++ plainHeader.frame plainEntry :=
  plainHeader.log_concat [plainEntry] plainEntry

theorem not_suffix_cutLog {k : Nat} (hk : k = (plainHeader.log [plainEntry]).length + 5) :
    ¬plainHeader.marker.bytes <:+ (plainHeader.log [plainEntry, plainEntry]).take k := by
  intro hsuffix
  have hframe : Marker.size ≤ (plainHeader.frame plainEntry).length := Header.length_frame_ge plainEntry
  have hfive : ((plainHeader.frame plainEntry).take 5).length = 5 :=
    List.length_take_of_le (Nat.le_trans (by decide) hframe)
  obtain ⟨front, hfront⟩ : ∃ front, plainHeader.log [plainEntry] = front ++ plainHeader.marker.bytes := by
    obtain ⟨front, hfront⟩ := (Header.framed_frame (logs_plain.stated plainEntry List.mem_cons_self)
      (logs_plain.carries plainEntry List.mem_cons_self)).ends
    refine ⟨plainHeader.log [] ++ front, ?_⟩
    rw [show [plainEntry] = [] ++ [plainEntry] from rfl, Header.log_concat, hfront, List.append_assoc]
    rfl
  -- The marker would have to be its own last eleven bytes with five others after them.
  have hlength := plainHeader.marker.length_eq
  rw [hk, log_plain, List.take_length_add_append, hfront, List.append_assoc,
    List.suffix_iff_eq_drop, List.length_append, List.length_append, hfive, hlength,
    show front.length + (16 + 5) - 16 = front.length + 5 by omega, List.drop_length_add_append,
    List.drop_append_of_le_length (by omega)] at hsuffix
  have hhead := congrArg List.head? hsuffix
  rw [List.head?_append, show (plainHeader.marker.bytes.drop 5).head? = some 0x61 from rfl,
    Option.some_or] at hhead
  exact absurd hhead (by decide)

/-- Where the second of two blocks is cut off after five bytes, the first one is kept. -/
theorem open_cut_cutLog : ∃ k, plainHeader.encode.length ≤ k
    ∧ (plainHeader.Logs [plainEntry, plainEntry]
      ∧ plainHeader.schema.fields = DeviceRecord.schema.fields
      ∧ k ≤ (plainHeader.log [plainEntry, plainEntry]).length
      ∧ ¬plainHeader.marker.bytes <:+ (plainHeader.log [plainEntry, plainEntry]).take k
      ∧ (cutLog k).findForFile ⟨"log"⟩ = .ok ["log"]
      ∧ FileSystem.entry? (cutLog k) ["log"] = some (.file ((plainHeader.log [plainEntry, plainEntry]).take k))
      ∧ (cutLog k).Quiet)
    ∧ ∃ a gs, Appender.open ⟨"log"⟩ DeviceRecord.schema (.deflate 9) (.numbered 1) (cutLog k) = (.ok a, gs)
      ∧ a.created = false ∧ gs.entry? ["log"] = some (.file (plainHeader.log [plainEntry])) := by
  obtain ⟨k, hk⟩ : ∃ k, k = (plainHeader.log [plainEntry]).length + 5 := ⟨_, rfl⟩
  have hframe : Marker.size ≤ (plainHeader.frame plainEntry).length := Header.length_frame_ge plainEntry
  have hlt : k < (plainHeader.log [plainEntry, plainEntry]).length := by
    rw [hk, log_plain, List.length_append]
    exact Nat.add_lt_add_left (Nat.lt_of_lt_of_le (by decide) hframe) _
  have hheader : plainHeader.encode.length ≤ k := by
    rw [hk, Header.log, List.length_append, Nat.add_assoc]
    exact Nat.le_add_right _ _
  have hquiet : (cutLog k).Quiet := ⟨rfl, by simp [cutLog]⟩
  have hfields : plainHeader.schema.fields = DeviceRecord.schema.fields := rfl
  have hfind : (cutLog k).findForFile ⟨"log"⟩ = .ok ["log"] := rfl
  have hle := Nat.le_of_lt hlt
  refine ⟨k, hheader, ⟨logs_plain, hfields, hle, not_suffix_cutLog hk, hfind, rfl, hquiet⟩, ?_⟩
  obtain ⟨a, gs, hopen, -, hbody⟩ := open_cut logs_plain hfields hle
    (fun _ hsuffix => absurd hsuffix (not_suffix_cutLog hk)) hfind rfl hquiet (.deflate 9) (.numbered 1)
  obtain ⟨hcreated, j, hj, hwithin, hmost, hentry, -⟩ := hbody hheader
  have hfirst : [plainEntry, plainEntry].take 1 = [plainEntry] := rfl
  have hlower : 1 ≤ j := by
    refine hmost 1 (by decide) ?_
    rw [hfirst, hk]
    exact Nat.le_add_right _ 5
  have hupper : j ≠ 2 := fun h => by
    subst h
    exact absurd hwithin (Nat.not_le_of_lt hlt)
  obtain rfl : j = 1 := by
    simp only [List.length_cons, List.length_nil] at hj
    omega
  exact ⟨a, gs, hopen, hcreated, hentry⟩

end Appender

end DeviceLog
