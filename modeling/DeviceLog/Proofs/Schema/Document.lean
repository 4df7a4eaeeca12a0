import DeviceLog.Proofs.Json.Grammar
import DeviceLog.Proofs.Json.Value
import DeviceLog.Schema.Document

/-! # Schema documents are read as they were written

Every schema is what its own document is read as, whatever its names are, and what every other document is
read as that describes it.

* `Field.Described` and `Schema.Described` say which objects describe a field and a schema. Their members may
  have any order, and there may be others.
* `Field.reads_described` and `Schema.reads_described` read the tokens of these objects.
* `Schema.ofDocument_of_described` puts them together with the splitting of documents.
-/

namespace DeviceLog

open Json (Token)

/-- Values that may be among the members of a description without being a part of it. -/
inductive Json.Value.Atom : Json.Value → Prop
  | null : Atom .null
  | bool (b : Bool) : Atom (.bool b)
  | text (s : String) : Atom (.text s)

theorem Json.Value.Atom.reads_skip {v : Json.Value} (h : v.Atom) :
    Json.Decoder.Reads Json.Decoder.skip v.tokens () := by
  cases h <;> exact fun _ => rfl

/-! ## Fields -/

namespace Field

/-- The objects that describe a field. -/
inductive Described (f : Field) : Json.Value → Prop
  | object {members others : List (String × Json.Value)} :
      members.Perm ([("name", .text f.name), ("type", .text f.type.label)] ++ others) →
        (∀ m ∈ others, m.1 ∉ ["name", "type"] ∧ m.2.Atom) → Described f (.object members)

theorem described_toJson (f : Field) : f.Described f.toJson := .object (.refl _) nofun

/-- What has been read of a field once the members with some names have been. -/
def having (f : Field) (names : List String) : Draft where
  name := if "name" ∈ names then some f.name else none
  type := if "type" ∈ names then some f.type else none

theorem reads_label (t : FieldType) : Json.Decoder.Reads FieldType.decoder [.text (some t.label)] t := by
  cases t <;> exact fun _ => rfl

theorem adds (f : Field) : ∀ m ∈ [("name", [Token.text (some f.name)]), ("type", [.text (some f.type.label)])],
    layout.Adds f.having m := by
  simp only [List.forall_mem_cons]
  refine ⟨?_, ?_, nofun⟩
  · exact Json.Layout.adds_of_find rfl (fun names h => by simp [having, h]) fun names =>
      (Json.Decoder.reads_text f.name).map (by simp [having])
  · exact Json.Layout.adds_of_find rfl (fun names h => by simp [having, h]) fun names =>
      (reads_label f.type).map (by simp [having])

/-- A field is read from every object that describes it. -/
theorem reads_described {f : Field} {v : Json.Value} (h : f.Described v) :
    Json.Decoder.Reads layout.read v.tokens f := by
  cases h with
  | object hperm hothers =>
    rw [Json.Value.tokens_object]
    have htokens := hperm.map fun m => (m.1, m.2.tokens)
    rw [List.map_append] at htokens
    have hnames : (["name", "type"] : List String).Nodup := by decide
    refine Json.Layout.reads_object htokens rfl f.adds ?_ hnames ?_
    · exact List.forall_mem_map.2 fun m hm => ⟨(hothers m hm).1, (hothers m hm).2.reads_skip⟩
    · intro names rest hall
      obtain ⟨hname, htype⟩ : "name" ∈ names ∧ "type" ∈ names := by simpa using hall
      have hdraft : f.having names = ⟨some f.name, some f.type⟩ := by simp [having, hname, htype]
      rw [hdraft]
      rfl

end Field

/-! ## Schemas -/

namespace Schema

/-- The members that state a namespace, or that there is none. -/
inductive Scoped : Option String → List (String × Json.Value) → Prop
  | text (n : String) : Scoped (some n) [("namespace", .text n)]
  | null : Scoped none [("namespace", .null)]
  | missing : Scoped none []

/-- The objects that describe a schema. -/
inductive Described (s : Schema) : Json.Value → Prop
  | object {members scope others : List (String × Json.Value)} {fields : List Json.Value} :
      members.Perm ([("type", .text "record"), ("name", .text s.name)] ++ scope ++ [("fields", .list fields)]
        ++ others) → Scoped s.scope scope → List.Forall₂ Field.Described s.fields fields →
        (∀ m ∈ others, m.1 ∉ ["type", "name", "namespace", "fields"] ∧ m.2.Atom) →
          Described s (.object members)

theorem described_toJson (s : Schema) : s.Described s.toJson := by
  have hfields : List.Forall₂ Field.Described s.fields (s.fields.map Field.toJson) :=
    List.forall₂_map_right_iff.2 (List.forall₂_same.2 fun f _ => f.described_toJson)
  obtain ⟨name, scope, fields⟩ := s
  cases scope with
  | none => exact .object (.of_eq (List.append_nil _).symm) .missing hfields nofun
  | some n => exact .object (.of_eq (List.append_nil _).symm) (.text n) hfields nofun

/-- What has been read of a schema once the members with some names have been. -/
def having (s : Schema) (names : List String) : Draft where
  tag := if "type" ∈ names then some () else none
  name := if "name" ∈ names then some s.name else none
  scope := if "namespace" ∈ names then some s.scope else none
  fields := if "fields" ∈ names then some s.fields else none

theorem reads_fields {s : Schema} {fields : List Json.Value} (h : List.Forall₂ Field.Described s.fields fields) :
    Json.Decoder.Reads (.list Field.layout.read) (Json.Value.list fields).tokens s.fields := by
  rw [Json.Value.tokens_list]
  refine .list (List.forall₂_map_right_iff.2 (h.imp fun f v hv => ⟨Field.reads_described hv, v.starts_tokens⟩))

/-- Either member of a namespace is read as the namespace, and without one there is none. -/
theorem adds_scope {s : Schema} {scope : List (String × Json.Value)} (h : Scoped s.scope scope) :
    ∀ m ∈ scope, layout.Adds s.having (m.1, m.2.tokens) := by
  have hread : ∀ tokens, Json.Decoder.Reads (.optional .text) tokens s.scope →
      layout.Adds s.having ("namespace", tokens) := fun tokens hscope =>
    Json.Layout.adds_of_find rfl (fun names h => by simp [having, h]) fun names => hscope.map (by simp [having])
  obtain ⟨name, stated, fields⟩ := s
  cases h with
  | text n => exact List.forall_mem_singleton.2 (hread _ fun _ => rfl)
  | null => exact List.forall_mem_singleton.2 (hread _ fun _ => rfl)
  | missing => exact nofun

theorem adds {s : Schema} {scope : List (String × Json.Value)} {fields : List Json.Value}
    (hscope : Scoped s.scope scope) (hfields : List.Forall₂ Field.Described s.fields fields) :
    ∀ m ∈ [("type", .text "record"), ("name", .text s.name)] ++ scope ++ [("fields", Json.Value.list fields)],
      layout.Adds s.having (m.1, m.2.tokens) := by
  have htag : Json.Decoder.Reads (.choice [("record", ())]) [.text (some "record")] () := fun _ => rfl
  simp only [List.forall_mem_append, List.forall_mem_cons]
  refine ⟨⟨⟨?_, ?_, nofun⟩, adds_scope hscope⟩, ?_, nofun⟩
  · exact Json.Layout.adds_of_find rfl (fun names h => by simp [having, h]) fun names => htag.map (by simp [having])
  · exact Json.Layout.adds_of_find rfl (fun names h => by simp [having, h]) fun names =>
      (Json.Decoder.reads_text s.name).map (by simp [having])
  · exact Json.Layout.adds_of_find rfl (fun names h => by simp [having, h]) fun names =>
      (reads_fields hfields).map (by simp [having])

/-- A draft with all members that describe a schema is the schema. -/
theorem finish_having {s : Schema} {scope : List (String × Json.Value)} (hscope : Scoped s.scope scope)
    {names : List String} (hscoped : ∀ m ∈ scope, m.1 ∈ names)
    (hnames : "type" ∈ names ∧ "name" ∈ names ∧ "fields" ∈ names) (rest : List Token) :
    layout.finish (s.having names) rest = (.ok s, rest) := by
  obtain ⟨htype, hname, hfields⟩ := hnames
  have hdraft : s.having names
      = ⟨some (), some s.name, if "namespace" ∈ names then some s.scope else none, some s.fields⟩ := by
    simp [having, htype, hname, hfields]
  rw [hdraft]
  obtain ⟨name, stated, fields⟩ := s
  cases hscope with
  | text n =>
    rw [if_pos (hscoped _ List.mem_cons_self)]
    rfl
  | null | missing => split <;> rfl

/-- A schema is read from every object that describes it. -/
theorem reads_described {s : Schema} {v : Json.Value} (h : s.Described v) :
    Json.Decoder.Reads layout.read v.tokens s := by
  cases h with
  | @object members scope others fields hperm hscope hfields hothers =>
    rw [Json.Value.tokens_object]
    have htokens := hperm.map fun m => (m.1, m.2.tokens)
    rw [List.map_append] at htokens
    refine Json.Layout.reads_object htokens rfl (List.forall_mem_map.2 (adds hscope hfields)) ?_ ?_ ?_
    · exact List.forall_mem_map.2 fun m hm => ⟨(hothers m hm).1, (hothers m hm).2.reads_skip⟩
    · obtain ⟨name, stated, schemaFields⟩ := s
      cases hscope <;> simp
    · intro names rest hall
      have hmem : ∀ m ∈ [("type", .text "record"), ("name", .text s.name)] ++ scope ++ [("fields", .list fields)],
          m.1 ∈ names := fun m hm => hall (m.1, m.2.tokens) (List.mem_map_of_mem hm)
      simp only [List.forall_mem_append, List.forall_mem_cons] at hmem
      obtain ⟨⟨⟨htype, hname, -⟩, hscoped⟩, hfield, -⟩ := hmem
      exact finish_having hscope hscoped ⟨htype, hname, hfield⟩ rest

/-! ## Documents -/

/-- A schema is what a document is read as that has the tokens of a description. -/
theorem ofDocument_of_described {s : Schema} {v : Json.Value} (hv : s.Described v) {bytes : Bytes}
    (hbytes : Token.ofBytes bytes = v.tokens) : ofDocument bytes = .ok s := by
  have hreads := reads_described hv
  rw [← hbytes] at hreads
  exact hreads.decode

/-- A schema is what its document is read as. -/
theorem ofDocument_document (s : Schema) : ofDocument (Utf8.encode s.document) = .ok s :=
  ofDocument_of_described s.described_toJson s.toJson.ofBytes_render

/-- A schema is what its document is read as, and so is every document that describes it, in whatever order,
with whatever blanks and in whatever spelling it does. -/
theorem ofDocument_described (s : Schema) : ofDocument (Utf8.encode s.document) = .ok s
    ∧ ∀ v bytes, s.Described v → Token.Written v.tokens bytes → ofDocument bytes = .ok s :=
  ⟨s.ofDocument_document, fun _ _ hv hbytes => ofDocument_of_described hv hbytes.ofBytes⟩

def scoreSchema : Schema := ⟨"𝄞", none, [⟨"bar", .long⟩]⟩

/-- A description of this schema with all members in reverse order, a null and members that mean nothing. -/
def scoreValue : Json.Value :=
  .object [("open", .bool true),
    ("fields", .list [.object [("doc", .null), ("type", .text "long"), ("name", .text "bar")]]),
    ("namespace", .null), ("name", .text "𝄞"), ("type", .text "record")]

/-- The description with blanks and escapes. -/
def scoreDocument : String :=
  "\x7b\n\t\"open\":true,\"fields\": [\x7b\"doc\":null,\"type\":\"long\",\"n\\u0061me\":\"bar\"\x7d],"
    ++ "\r\n\t\"namespace\":null,\"name\":\"\\uD834\\udd1E\",\"type\":\"record\"\x7d\n"

theorem described_scoreValue : scoreSchema.Described scoreValue := by
  have hfield : Field.Described ⟨"bar", .long⟩
      (.object [("doc", .null), ("type", .text "long"), ("name", .text "bar")]) := by
    have hperm := List.reverse_perm ([("name", Json.Value.text "bar"), ("type", .text "long")] ++ [("doc", .null)])
    exact .object hperm (List.forall_mem_singleton.2 ⟨by decide, .null⟩)
  have hperm := List.reverse_perm ([("type", Json.Value.text "record"), ("name", .text "𝄞")]
    ++ [("namespace", .null)] ++ [("fields", .list [.object [("doc", .null), ("type", .text "long"),
      ("name", .text "bar")]])] ++ [("open", .bool true)])
  exact .object hperm .null (.cons hfield .nil) (List.forall_mem_singleton.2 ⟨by decide, .bool true⟩)

theorem written_scoreDocument : Token.Written scoreValue.tokens (Utf8.encode scoreDocument) := by
  have hclef : Token.Spelling (.text (some "𝄞"))
      (0x22 :: ([0x5C, 0x75, 0x44, 0x38, 0x33, 0x34, 0x5C, 0x75, 0x64, 0x64, 0x31, 0x45] ++ [0x22])) := by
    have hpair : Token.SpelledChar '𝄞'
        ([0x5C, 0x75, 0x44, 0x38, 0x33, 0x34] ++ [0x5C, 0x75, 0x64, 0x64, 0x31, 0x45]) :=
      .pair (show 0x34 < 0x400 by decide) (show 0x11E < 0x400 by decide) (by decide)
        (.digits (by decide) (by decide) (by decide) (by decide))
        (.digits (by decide) (by decide) (by decide) (by decide))
    exact .text (.cons hpair .nil)
  have hname : Token.Spelling (.text (some "name"))
      (0x22 :: ([0x6E, 0x5C, 0x75, 0x30, 0x30, 0x36, 0x31, 0x6D, 0x65] ++ [0x22])) := by
    have hletter : Token.SpelledChar 'a' [0x5C, 0x75, 0x30, 0x30, 0x36, 0x31] :=
      .unit (.digits (by decide) (by decide) (by decide) (by decide))
    have hplain : ∀ c ∈ ['n', 'm', 'e'], Token.SpelledChar c (Utf8.encodeChar c) := by
      simp only [List.forall_mem_cons]
      refine ⟨.plain ?_ ?_ ?_, .plain ?_ ?_ ?_, .plain ?_ ?_ ?_, nofun⟩ <;> decide
    exact .text (.cons (hplain 'n' (by decide)) (.cons hletter (.cons (hplain 'm' (by decide))
      (.cons (hplain 'e' (by decide)) .nil))))
  have htext := Token.spelling_text
  have hspace : 0x20 ∈ Token.blanks := by decide
  have htab : 0x09 ∈ Token.blanks := by decide
  have hline : 0x0A ∈ Token.blanks := by decide
  have hreturn : 0x0D ∈ Token.blanks := by decide
  have hwritten : Token.Written scoreValue.tokens _ :=
    .token .openObject <| .blank hline <| .blank htab <|
    .token (htext "open") <| .token .colon <| .token .yes <| .token .comma <|
    .token (htext "fields") <| .token .colon <| .blank hspace <| .token .openList <|
    .token .openObject <| .token (htext "doc") <| .token .colon <| .token .null <| .token .comma <|
    .token (htext "type") <| .token .colon <| .token (htext "long") <| .token .comma <|
    .token hname <| .token .colon <| .token (htext "bar") <| .token .closeObject <| .token .closeList <|
    .token .comma <| .blank hreturn <| .blank hline <|
    .blank htab <| .token (htext "namespace") <| .token .colon <| .token .null <| .token .comma <|
    .token (htext "name") <| .token .colon <| .token hclef <| .token .comma <|
    .token (htext "type") <| .token .colon <| .token (htext "record") <| .token .closeObject <|
    .blank hline .nil
  refine Eq.subst (motive := Token.Written scoreValue.tokens) ?_ hwritten
  decide +kernel

theorem ofDocument_described_score :
    (scoreSchema.Described scoreValue ∧ Token.Written scoreValue.tokens (Utf8.encode scoreDocument))
      ∧ ofDocument (Utf8.encode scoreDocument) = .ok scoreSchema :=
  ⟨⟨described_scoreValue, written_scoreDocument⟩,
    (ofDocument_described scoreSchema).2 _ _ described_scoreValue written_scoreDocument⟩

end Schema

end DeviceLog
