import DeviceLog.Service.MediaType
import DeviceLog.Service.Request
import DeviceLog.Store.Basic

/-! # The service

The service takes updates and answers whether they were kept. It also answers that it is alive.

* `Http.wish` says what a request asks for, or the status that turns it down.
* `Http.respond` does it.
-/

namespace DeviceLog.Http

structure Request where
  method : String
  target : String
  /-- The type of the body, if it is stated. -/
  contentType : Option String
  body : Bytes

structure Reply where
  status : Nat
  body : String
  deriving DecidableEq, Repr

/-- What a request asks for. -/
inductive Wish where
  /-- A sign of life; only its status, if `brief`. -/
  | health (brief : Bool)
  | keep (u : StateUpdate)
  | refused (status : Nat)

/-- Whether a character may stand in a scheme. -/
def isSchemeChar (c : Char) : Bool := c.isAlphanum ∨ c = '+' ∨ c = '-' ∨ c = '.' ∨ c = '~'

/-- A target without the scheme, which may be empty, and the host that it may begin with. -/
def withoutHost (target : List Char) : List Char :=
  match target.dropWhile isSchemeChar with
  | ':' :: '/' :: '/' :: rest => rest.dropWhile fun c => c ≠ '/' ∧ c ≠ '?' ∧ c ≠ '#'
  | _ => target

def pathOf (target : String) : String :=
  String.ofList ((withoutHost target.toList).takeWhile fun c => c ≠ '?' ∧ c ≠ '#')

def longestBody : Nat := 2 * 1024 * 1024

def wishOfBody (body : Bytes) : Wish :=
  match StateUpdate.ofRequest body with
  | .ok u => .keep u
  | .error .notJson => .refused 400
  | .error (.shape _) => .refused 422

def wishOfUpdate (r : Request) : Wish :=
  -- Only a body of the right type and length is looked into.
  if ¬r.contentType.any MediaType.isJson then .refused 415
  else if longestBody < r.body.length then .refused 413
  else wishOfBody r.body

def wish (r : Request) : Wish :=
  let path := pathOf r.target
  if path = "/health" then
    if r.method = "GET" then .health false
    else if r.method = "HEAD" then .health true
    else .refused 405
  else if path = "/api/device-state" then
    if r.method = "POST" then wishOfUpdate r else .refused 405
  else .refused 404

def healthBody : Json.Value := .object [("status", .text "ok")]

/-- Answers a request, and keeps what it asks to keep. -/
def respond (s : Store) (marker : Marker) (now : Instant) (r : Request) (fs : FileSystem) :
    Reply × FileSystem :=
  match wish r with
  | .health brief => (⟨200, if brief then "" else healthBody.render⟩, fs)
  | .refused status => (⟨status, ""⟩, fs)
  | .keep u =>
    let (answer, fs) := s.set marker u now fs
    (⟨200, answer.toJson.render⟩, fs)

end DeviceLog.Http
