import DeviceLog.Proofs.Log.Opening
import DeviceLog.Proofs.Log.Recovery

/-! # What stays of a body when a log is opened

Behind its header a file may hold any bytes. Opening looks at the last of them, and only if they are not
the marker of the log it reads the body block by block.

* `Header.IsBlocks h bytes`: the bytes are pieces each of which is read as a block.
* `Header.Frames.isPrefix_of_stops`: where no further block can be read, there is no other way to go on.
  So what the scan has found is the longest such part (`Header.intact_greatest`).
* `Appender.open_keeps`: the header stays, and behind it the whole body or that part of it. The appender
  takes the log back to exactly these bytes.
-/

namespace DeviceLog

theorem Block.framed_iff_read {h : Header} {b : Block} {bytes : Bytes} :
    b.Framed h bytes ↔ read h bytes = (.ok (some b), []) := by
  constructor
  · intro hframe
    have hread := read_framed hframe []
    rwa [List.append_nil] at hread
  · intro hread
    obtain ⟨front, rfl, hframe⟩ := framed_of_read hread
    rwa [List.append_nil]

namespace Header

variable {h : Header} {bytes front rest other more body : Bytes}

/-- Whether bytes are pieces one after another each of which is read as a block. -/
def IsBlocks (h : Header) (bytes : Bytes) : Prop :=
  ∃ pieces : List Bytes, bytes = pieces.flatten
    ∧ ∀ piece ∈ pieces, ∃ b, Block.read h piece = (.ok (some b), [])

theorem isBlocks_iff : h.IsBlocks bytes ↔ ∃ found, h.Frames found bytes := by
  constructor
  · rintro ⟨pieces, rfl, hpieces⟩
    induction pieces with
    | nil => exact ⟨[], .nil⟩
    | cons piece pieces ih =>
      obtain ⟨b, hread⟩ := hpieces piece List.mem_cons_self
      obtain ⟨found, hframes⟩ := ih fun p hp => hpieces p (List.mem_cons_of_mem piece hp)
      exact ⟨b :: found, .cons (Block.framed_iff_read.2 hread) hframes⟩
  · rintro ⟨found, hframes⟩
    induction hframes with
    | nil => exact ⟨[], rfl, nofun⟩
    | @cons b blocks piece _ hframe _ ih =>
      obtain ⟨pieces, rfl, hpieces⟩ := ih
      exact ⟨piece :: pieces, rfl,
        List.forall_mem_cons.2 ⟨⟨b, Block.framed_iff_read.1 hframe⟩, hpieces⟩⟩

/-- Blocks behind which no further one can be read go as far as any blocks at the front of these bytes. -/
theorem Frames.isPrefix_of_stops {found' : List Block} (hother : h.Frames found' other) :
    ∀ {found : List Block} {front : Bytes} {stop : Option FormatError}, h.Frames found front →
      h.Stops rest stop → front ++ rest = other ++ more → other <+: front := by
  induction hother with
  | nil => exact fun _ _ _ => List.nil_prefix
  | @cons b' blocks' piece others hframe' _ ih =>
    intro found front stop hframes hstops heq
    rw [List.append_assoc] at heq
    have hread' := Block.read_framed hframe' (others ++ more)
    cases hframes with
    | nil =>
      rw [List.nil_append] at heq
      rw [← heq] at hread'
      cases hstops with
      | done => cases hread'
      | refused hrefused =>
        rw [hrefused] at hread'
        cases hread'
    | @cons b blocks first next hframe hnext =>
      rw [List.append_assoc] at heq
      have hread := Block.read_framed hframe (next ++ rest)
      rw [heq, hread', Prod.mk.injEq] at hread
      obtain rfl : first = piece := by
        rw [hread.2] at heq
        exact List.append_cancel_right heq
      exact (List.prefix_append_right_inj first).2 (ih hnext hstops hread.2.symm)

/-- What a scan keeps is blocks, and no blocks at the front of the body go further. -/
theorem intact_greatest (h : Header) (body : Bytes) :
    h.IsBlocks (body.take (h.intact body))
      ∧ ∀ other, other <+: body → h.IsBlocks other → other <+: body.take (h.intact body) := by
  obtain ⟨rest, hbody, hframes, hstops⟩ := take_intact h body
  refine ⟨isBlocks_iff.2 ⟨_, hframes⟩, ?_⟩
  rintro other ⟨more, hmore⟩ hother
  obtain ⟨found', hframes'⟩ := isBlocks_iff.1 hother
  exact hframes'.isPrefix_of_stops hframes hstops (hbody.symm.trans hmore.symm)

end Header

namespace Appender

variable {schema : Schema} {path : Path} {place : Place} {fs : FileSystem} {h : Header} {front body : Bytes}

/-- A body looks whole if it is empty or ends in the marker. -/
theorem looksWhole_iff : looksWhole h body = true ↔ body = [] ∨ h.marker.bytes <:+ body := by
  have hsize : Marker.size = h.marker.bytes.length := h.marker.length_eq.symm
  simp only [looksWhole, decide_eq_true_eq]
  rw [List.suffix_iff_eq_drop, hsize, eq_comm (a := h.marker.bytes)]
  refine or_congr_right ⟨And.right, fun hdrop => ⟨?_, hdrop⟩⟩
  have hlength := congrArg List.length hdrop
  rw [List.length_drop] at hlength
  omega

theorem keptOf_le (h : Header) (body : Bytes) : keptOf h body ≤ body.length := by
  simp only [keptOf]
  split
  · exact Nat.le_refl _
  · exact Nat.sub_le _ _

/-- A file with a header for the right fields is opened whatever stands behind it, and the header stays.
A body that is empty or ends in the marker stays as well. Of any other body there stays what can be read
as blocks: bytes at its front that are blocks one after another, and no such bytes go further. What the
file then holds is what the appender takes the log back to. -/
theorem open_keeps (hfind : fs.findForFile path = .ok place)
    (hfile : fs.entry? place = some (.file (front ++ body)))
    (hread : Header.read (front ++ body) = (.ok h, body)) (hfields : h.schema.fields = schema.fields)
    (codec : Codec) (marker : Marker) :
    ∃ a gs kept, «open» path schema codec marker fs = (.ok a, gs)
      ∧ fs.Rewrites gs place (front ++ kept)
      ∧ (body = [] ∨ h.marker.bytes <:+ body → kept = body)
      ∧ (¬(body = [] ∨ h.marker.bytes <:+ body) → h.IsBlocks kept ∧ kept <+: body
        ∧ ∀ other, other <+: body → h.IsBlocks other → other <+: kept)
      ∧ a.kept = (front ++ kept).length ∧ a.header = h ∧ a.created = false := by
  obtain ⟨r, gs, after, hopen, hrewrites, hopens⟩ := exists_open_file schema codec marker hfind hfile
  obtain ⟨rfl, rfl⟩ := hopens.eq_of_read hread hfields rfl
  have hfront : (front ++ body).length - body.length + keptOf h body = front.length + keptOf h body := by
    rw [List.length_append, Nat.add_sub_cancel]
  rw [hfront, List.take_length_add_append] at hrewrites
  refine ⟨_, gs, body.take (keptOf h body), hopen, hrewrites, fun hwhole => ?_, fun htorn => ?_, ?_, rfl, rfl⟩
  · rw [keptOf, if_pos (looksWhole_iff.2 hwhole), List.take_length]
  · rw [keptOf, if_neg (mt looksWhole_iff.1 htorn)]
    obtain ⟨hblocks, hgreatest⟩ := h.intact_greatest body
    exact ⟨hblocks, List.take_prefix _ _, hgreatest⟩
  · have hlength : (front ++ body.take (keptOf h body)).length = front.length + keptOf h body := by
      rw [List.length_append, List.length_take_of_le (keptOf_le h body)]
    exact hfront.trans hlength.symm

/-- The first bytes of a block that says to have a payload of 32 bytes. -/
def tornBlock : Bytes := [0x02, 0x40, 0x01]

/-- A log of one record, and behind it a block of which only the first bytes were written. -/
def tornLog : FileSystem where
  entries := [(["log"], .file (plainHeader.encode ++ (plainHeader.frame plainEntry ++ tornBlock)))]

/-- None of these bytes is the last one of the marker. -/
theorem not_suffix_tornBlock {part : Bytes} (hpart : part <+: tornBlock) (hne : part ≠ []) (front : Bytes) :
    ¬plainHeader.marker.bytes <:+ front ++ part := by
  rintro ⟨before, hbefore⟩
  have hlast := congrArg List.getLast? hbefore
  have hmarker : plainHeader.marker.bytes.getLast? = some 0x15 := rfl
  rw [List.getLast?_append, List.getLast?_append, hmarker, Option.some_or,
    List.getLast?_eq_some_getLast hne, Option.some_or, Option.some.injEq] at hlast
  have hmem := hpart.subset (List.getLast_mem hne)
  rw [← hlast] at hmem
  exact absurd hmem (by decide)

/-- The record of this log stays, and the first bytes of the other block do not. -/
theorem open_keeps_tornLog :
    (tornLog.findForFile ⟨"log"⟩ = .ok ["log"]
      ∧ tornLog.entry? ["log"]
        = some (.file (plainHeader.encode ++ (plainHeader.frame plainEntry ++ tornBlock)))
      ∧ Header.read (plainHeader.encode ++ (plainHeader.frame plainEntry ++ tornBlock))
        = (.ok plainHeader.stated, plainHeader.frame plainEntry ++ tornBlock)
      ∧ plainHeader.stated.schema.fields = DeviceRecord.schema.fields)
    ∧ ∃ a gs, «open» ⟨"log"⟩ DeviceRecord.schema (.deflate 9) (.numbered 1) tornLog = (.ok a, gs)
      ∧ gs.entry? ["log"] = some (.file (plainHeader.encode ++ plainHeader.frame plainEntry))
      ∧ a.kept = (plainHeader.encode ++ plainHeader.frame plainEntry).length := by
  have hfind : tornLog.findForFile ⟨"log"⟩ = .ok ["log"] := rfl
  have hfile : tornLog.entry? ["log"]
      = some (.file (plainHeader.encode ++ (plainHeader.frame plainEntry ++ tornBlock))) := rfl
  have hread := (Header.reads_encode logs_plain.writable).whole (plainHeader.frame plainEntry ++ tornBlock)
  refine ⟨⟨hfind, hfile, hread, rfl⟩, ?_⟩
  obtain ⟨a, gs, kept, hopen, hrewrites, -, htorn, hkept, -⟩ :=
    open_keeps hfind hfile hread (rfl : _ = DeviceRecord.schema.fields) (.deflate 9) (.numbered 1)
  have hframe : plainHeader.stated.IsBlocks (plainHeader.frame plainEntry) := by
    have hframes := (logs_plain.take 1).frames
    simp only [List.take_succ_cons, List.take_zero, List.flatMap_cons, List.flatMap_nil, List.append_nil] at hframes
    exact Header.isBlocks_iff.2 ⟨_, hframes⟩
  obtain ⟨hblocks, hprefix, hgreatest⟩ := htorn (by
    rintro (hnil | hsuffix)
    · exact absurd (List.append_eq_nil_iff.1 hnil).2 (by decide)
    · exact not_suffix_tornBlock List.prefix_rfl (by decide) _ hsuffix)
  -- The block is kept, and if more were kept it would end in the marker.
  obtain ⟨part, rfl⟩ := hgreatest _ (List.prefix_append _ _) hframe
  obtain rfl : part = [] := by
    by_contra hne
    obtain ⟨found, hframes⟩ := Header.isBlocks_iff.1 hblocks
    have hpart := (List.prefix_append_right_inj _).1 hprefix
    rcases hframes.ends with hnil | ⟨front, hfront⟩
    · exact hne (List.append_eq_nil_iff.1 hnil).2
    · exact not_suffix_tornBlock hpart hne _ ⟨front, hfront.symm⟩
  rw [List.append_nil] at hrewrites hkept
  exact ⟨a, gs, hopen, FileSystem.entry?_of_content? hrewrites.content?_self, hkept⟩

end Appender

end DeviceLog
