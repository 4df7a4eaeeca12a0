import DeviceLog.Proofs.Json.Spelling

/-! # Documents that others have written

`Token.Written tokens bytes` says that a document consists of tokens, each spelled in one of the ways that it
may be, with blanks anywhere between them. It does not say how a document is split;
`Token.Written.ofBytes` says that splitting finds the tokens.
-/

namespace DeviceLog.Json.Token

/-- The bytes of a token. A number is no token here, since nothing marks its end. -/
inductive Spelling : Token → Bytes → Prop
  | openObject : Spelling .openObject [0x7B]
  | closeObject : Spelling .closeObject [0x7D]
  | openList : Spelling .openList [0x5B]
  | closeList : Spelling .closeList [0x5D]
  | comma : Spelling .comma [0x2C]
  | colon : Spelling .colon [0x3A]
  | null : Spelling .null [0x6E, 0x75, 0x6C, 0x6C]
  | yes : Spelling (.bool true) [0x74, 0x72, 0x75, 0x65]
  | no : Spelling (.bool false) [0x66, 0x61, 0x6C, 0x73, 0x65]
  | text {s : String} {own : Bytes} : SpelledChars s.toList own →
      Spelling (.text (some s)) (0x22 :: (own ++ [0x22]))

/-- What may stand between tokens: spaces, tabs and line breaks. -/
def blanks : Bytes := [0x20, 0x09, 0x0A, 0x0D]

/-- A document is tokens one after another, with blanks before, between and after them. -/
inductive Written : List Token → Bytes → Prop
  | nil : Written [] []
  | blank {b : UInt8} {tokens : List Token} {bytes : Bytes} :
      b ∈ blanks → Written tokens bytes → Written tokens (b :: bytes)
  | token {token : Token} {tokens : List Token} {own rest : Bytes} :
      Spelling token own → Written tokens rest → Written (token :: tokens) (own ++ rest)

/-- A text may be spelled as it is rendered. -/
theorem spelling_text (s : String) : Spelling (.text (some s)) (Utf8.encode (renderText s)) := by
  rw [encode_renderText]
  exact .text (spelledChars_escaped s.toList)

theorem isSpace_of_mem_blanks : ∀ b ∈ blanks, isSpace b = true :=
  List.all_eq_true.1 (show blanks.all isSpace = true by decide)

/-- However a token is spelled, it is found in front of whatever follows it. -/
theorem Spelling.spelled {token : Token} {own : Bytes} (h : Spelling token own) {tokens : List Token}
    {rest : Bytes} (hmore : Spelled tokens rest) : Spelled (token :: tokens) (own ++ rest) := by
  cases h with
  | openObject | closeObject | openList | closeList | comma | colon =>
    exact .token rfl rfl (Nat.le_refl _) hmore
  | null | yes => exact .token rfl rfl (Nat.le_add_right _ 3) hmore
  | no => exact .token rfl rfl (Nat.le_add_right _ 4) hmore
  | text h =>
    rw [List.cons_append, List.append_assoc]
    exact spelled_chars h hmore

theorem Written.spelled {tokens : List Token} {bytes : Bytes} (h : Written tokens bytes) :
    Spelled tokens bytes := by
  induction h with
  | nil => exact .nil
  | blank hb _ ih => exact .blank (isSpace_of_mem_blanks _ hb) ih
  | token hown _ ih => exact hown.spelled ih

/-- Splitting a document finds its tokens. -/
theorem Written.ofBytes {tokens : List Token} {bytes : Bytes} (h : Written tokens bytes) :
    ofBytes bytes = tokens :=
  ofBytes_of_spelled h.spelled

end DeviceLog.Json.Token
