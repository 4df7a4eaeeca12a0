import DeviceLog.Proofs.Log.Handle

/-! # What a failed write leaves

Every write of an appender may fail, after any number of its bytes have reached the file, and so may the
flush at the end.

* `Appender.Reached` is the invariant of an open appender, whatever records it is given and whatever becomes
  of them: what the log would have been taken back to at first still stands in front.
* `Reached.append` and `Reached.close`: where a write or the flush fails, nothing stands behind it any more.
* `Appender.failure_takes_back`: so the file is what it was when the appender was opened, or nothing, if the
  appender has made it.
-/

namespace DeviceLog.Appender

variable {path : Path} {schema : Schema} {codec : Codec} {marker : Marker} {place : Place} {a b c : Appender}
  {fs gs hs ks : FileSystem} {start content : Bytes}

/-! ## Open appenders -/

/-- What an appender has come to since it was opened: it has counted some records, and behind the bytes that
it takes the log back to there may be others. -/
structure Reached (a : Appender) (gs : FileSystem) (start : Bytes) (b : Appender) (hs : FileSystem) : Prop where
  appender : ∃ n, b = { a with appended := n }
  file : ∃ more, gs.Rewrites hs a.place (start.take a.kept ++ more)

theorem Reached.refl (hstart : gs.content? a.place = some start) : Reached a gs start a gs := by
  refine ⟨⟨a.appended, rfl⟩, start.drop a.kept, ?_⟩
  rw [List.take_append_drop]
  exact .refl hstart

/-- What stands behind can be cut off. -/
theorem take_kept_append (hkept : a.kept ≤ start.length) (more : Bytes) :
    a.kept ≤ (start.take a.kept ++ more).length
      ∧ (start.take a.kept ++ more).take a.kept = start.take a.kept := by
  have hlength : (start.take a.kept).length = a.kept := List.length_take_of_le hkept
  constructor
  · rw [List.length_append, hlength]
    exact Nat.le_add_right _ _
  · exact List.take_left' hlength

theorem Reached.append (hr : Reached a gs start b hs) (hkept : a.kept ≤ start.length) {d : Datum}
    {r : Except LogError Unit} (happend : append d (b, hs) = (r, c, ks)) :
    Reached a gs start c ks
      ∧ ∀ e, r = .error (.io e) → c.appended = 0 ∧ gs.Rewrites ks a.place (start.take a.kept) := by
  obtain ⟨⟨n, rfl⟩, more, hfile⟩ := hr
  cases hfault : a.header.schema.fault d with
  | some fault =>
    rw [append_of_fault (a := { a with appended := n }) hfault] at happend
    cases happend
    exact ⟨⟨⟨n, rfl⟩, more, hfile⟩, nofun⟩
  | none =>
    obtain ⟨hlength, htake⟩ := take_kept_append hkept more
    obtain ⟨ks', ⟨hok, hrewrites⟩ | ⟨⟨e, herror⟩, -, hrewrites⟩⟩ :=
      append_cases (a := { a with appended := n }) hfile.content?_self hlength hfault
    · rw [happend] at hok
      cases hok
      rw [List.append_assoc] at hrewrites
      exact ⟨⟨⟨n + 1, rfl⟩, _, hfile.trans hrewrites⟩, nofun⟩
    · rw [happend] at herror
      cases herror
      rw [htake] at hrewrites
      have hback := hfile.trans hrewrites
      refine ⟨⟨⟨0, rfl⟩, [], ?_⟩, fun _ _ => ⟨rfl, hback⟩⟩
      rwa [List.append_nil]

theorem Reached.appendAll (hkept : a.kept ≤ start.length) : ∀ {ds : List Datum}
    {calls : List (Datum × Except LogError Unit)} {b c : Appender} {hs ks : FileSystem},
    Reached a gs start b hs → appendAll ds (b, hs) = (calls, c, ks) → Reached a gs start c ks
  | [], _, _, _, _, _, hr, happend => by
    cases happend
    exact hr
  | d :: ds, calls, b, c, hs, ks, hr, happend => by
    obtain ⟨r, ⟨b₁, hs₁⟩, more, hfirst, hrest, rfl⟩ := appendAll_cons happend
    obtain ⟨hnext, -⟩ := hr.append hkept hfirst
    exact hnext.appendAll hkept hrest

theorem Reached.close (hr : Reached a gs start b hs) (hkept : a.kept ≤ start.length) {e : LogError}
    (hclose : b.close hs = (.error e, ks)) : gs.Rewrites ks a.place (start.take a.kept) := by
  obtain ⟨⟨n, rfl⟩, more, hfile⟩ := hr
  obtain ⟨hlength, htake⟩ := take_kept_append hkept more
  obtain ⟨ks', ⟨hok, -⟩ | ⟨⟨e', herror⟩, -, hrewrites⟩⟩ :=
    close_cases (a := { a with appended := n }) hfile.content?_self hlength
  · rw [hclose] at hok
    cases hok
  · rw [hclose] at herror
    cases herror
    rw [htake] at hrewrites
    exact hfile.trans hrewrites

/-! ## Opening -/

theorem Opens.of_io {e : IoError}
    (hopens : Opens path schema codec marker place content (.error (.io e)) start) :
    StartsAnew content ∧ start = [] := by
  cases hopens with
  | notCreated _ hanew => exact ⟨hanew, rfl⟩

/-- What opening leaves is a header that was made, or the first bytes of what there was. -/
theorem Opens.start_eq (hopens : Opens path schema codec marker place content (.ok a) start) :
    (a.created = true → start = a.header.encode) ∧ (a.created = false → start <+: content) := by
  cases hopens with
  | created _ => exact ⟨fun _ => rfl, nofun⟩
  | whole _ _ _ => exact ⟨nofun, fun _ => List.prefix_rfl⟩
  | torn _ _ _ _ => exact ⟨nofun, fun _ => List.take_prefix _ _⟩

/-! ## Failing -/

/-- Where a header cannot be written, there was no log, and the file is empty. Where a write of an open
appender fails, or the flush when it is closed, the file is what it was when the appender was opened, and
empty if the appender had written the header; then no record counts as appended. -/
theorem failure_takes_back (path : Path) (schema : Schema) (codec : Codec) (marker : Marker)
    (fs : FileSystem) :
    (∀ e gs place, «open» path schema codec marker fs = (.error (.io e), gs) →
      fs.findForFile path = .ok place → fs.entry? place ≠ some .directory →
        StartsAnew ((fs.content? place).getD []) ∧ gs.read path = .ok [])
    ∧ ∀ a gs, «open» path schema codec marker fs = (.ok a, gs) → ∃ start, gs.read path = .ok start
      ∧ (a.created = true → start = a.header.encode)
      ∧ (a.created = false → start <+: (fs.content? a.place).getD [])
      ∧ ∀ ds calls b hs, appendAll ds (a, gs) = (calls, b, hs) →
        (∀ d e c ks, append d (b, hs) = (.error (.io e), c, ks) →
          ks.read path = .ok (if a.created then [] else start) ∧ c.appended = 0)
        ∧ ∀ e ks, b.close hs = (.error e, ks) → ks.read path = .ok (if a.created then [] else start) := by
  constructor
  · intro e gs place hopen hfind hentry
    obtain ⟨r, gs', after, hopen', hrewrites, hopens⟩ := exists_open schema codec marker hfind hentry rfl
    rw [hopen] at hopen'
    cases hopen'
    obtain ⟨hanew, rfl⟩ := hopens.of_io
    exact ⟨hanew, hrewrites.read (FileSystem.find_of_findForFile hfind) hentry⟩
  · intro a gs hopen
    obtain ⟨start, -, hrewrites, hfind, hopens⟩ := exists_opens hopen
    have hstart := hrewrites.content?_self
    have hentry := FileSystem.ne_directory_of_content? hstart
    obtain ⟨hcreated, hprefix⟩ := hopens.start_eq
    have hread := FileSystem.read_of_content? hfind hstart
    refine ⟨start, hread, hcreated, hprefix, fun ds calls b hs happend => ?_⟩
    have hreached := (Reached.refl hstart).appendAll hopens.kept_le happend
    rw [← hopens.take_kept]
    constructor
    · intro d e c ks hfail
      obtain ⟨-, hback⟩ := hreached.append hopens.kept_le hfail
      obtain ⟨hcount, hfile⟩ := hback e rfl
      exact ⟨hfile.read hfind hentry, hcount⟩
    · intro e ks hclose
      exact (hreached.close hopens.kept_le hclose).read hfind hentry

/-- One write goes through and the next one is cut short. -/
theorem exists_overfull (a : Appender) (fs : FileSystem) (hlimit : fs.limit = none) {count : Nat}
    (hfates : fs.fates = [.whole, .cut count]) {d : Datum} (hfault : a.header.schema.fault d = none) :
    ∃ b hs c ks, appendAll [d] (a, fs) = ([(d, .ok ())], b, hs) ∧ b.appended = a.appended + 1
      ∧ append d (b, hs) = (.error (.io .fileTooLarge), c, ks) := by
  have hblock := blockOf_of_fits hfault
  obtain ⟨hs, hwhole, hnext⟩ : ∃ hs, FileSystem.append a.place ((Block.ofDatum d).encode a.header) fs
      = (.ok (), hs) ∧ hs.fates = [.cut count] := ⟨_, fs.append_whole hlimit hfates _ _, rfl⟩
  obtain ⟨ks, hcut, -, -⟩ := FileSystem.append_cut hnext a.place ((Block.ofDatum d).encode a.header)
  have hfirst : appendAll [d] (a, fs) = ([(d, .ok ())], { a with appended := a.appended + 1 }, hs) := by
    simp only [appendAll, append, hblock, hwhole]
  have hfail : append d ({ a with appended := a.appended + 1 }, hs)
      = (.error (.io .fileTooLarge), rollBack { a with appended := a.appended + 1 } ks) := by
    simp only [append, hblock, hcut]
  exact ⟨_, hs, _, _, hfirst, rfl, hfail⟩

/-- A log of one record. Of two blocks that are appended to it the second is cut short. -/
def overfullLog : FileSystem where
  entries := [(["log"], .file (plainHeader.log [plainEntry]))]
  fates := [.whole, .cut 3]

/-- The block that was written goes with the one that was cut short, and the record of before stays. -/
theorem failure_takes_back_overfullLog : ∃ a b hs c ks,
    «open» ⟨"log"⟩ DeviceRecord.schema (.deflate 9) (.numbered 1) overfullLog = (.ok a, overfullLog)
      ∧ appendAll [plainEntry.datum] (a, overfullLog) = ([(plainEntry.datum, .ok ())], b, hs) ∧ b.appended = 1
      ∧ append plainEntry.datum (b, hs) = (.error (.io .fileTooLarge), c, ks)
      ∧ ks.read ⟨"log"⟩ = .ok (plainHeader.log [plainEntry]) ∧ c.appended = 0 := by
  have hl : plainHeader.Logs [plainEntry] := logs_plain.take 1
  have hfile : overfullLog.entry? ["log"] = some (.file (plainHeader.log [plainEntry])) := rfl
  have hfind : overfullLog.findForFile ⟨"log"⟩ = .ok ["log"] := rfl
  have hopen := open_whole hl.isLog (rfl : _ = DeviceRecord.schema.fields) hfind hfile (.deflate 9)
    (.numbered 1)
  obtain ⟨b, hs, c, ks, happend, hcount, hfail⟩ := exists_overfull
    ⟨⟨"log"⟩, ["log"], plainHeader.stated, (plainHeader.log [plainEntry]).length, false, 0⟩
    overfullLog rfl rfl (hl.fits plainEntry List.mem_cons_self)
  obtain ⟨-, hopened⟩ :=
    failure_takes_back ⟨"log"⟩ DeviceRecord.schema (.deflate 9) (.numbered 1) overfullLog
  obtain ⟨start, hstart, -, -, hback⟩ := hopened _ _ hopen
  rw [FileSystem.read_of_file (FileSystem.find_of_findForFile hfind) hfile] at hstart
  cases hstart
  obtain ⟨hread, hnone⟩ := (hback _ _ _ _ happend).1 _ _ _ _ hfail
  exact ⟨_, b, hs, c, ks, hopen, happend, hcount, hfail, hread, hnone⟩

end DeviceLog.Appender
