import DeviceLog.Container.Header
import DeviceLog.Wire.Datum

/-! # Blocks

After the header a log is a sequence of blocks. A block is the number of its records, the size of
its payload, the payload, and the marker of the log. The payload is the compressed bytes of the
records.

* `Block.encode` and `Block.read` are the two directions for one block.
* `Block.datums` reads the records of a block, which must take up all of its data.
* `Header.blocks` reads blocks for as long as there are any, and `Header.datums` the records of all
  of them.
-/

namespace DeviceLog

/-- A block: how many records it holds, and their bytes. -/
structure Block where
  count : Nat
  data : Bytes
  deriving DecidableEq

namespace Block

def encode (h : Header) (b : Block) : Bytes :=
  let payload := h.codec.compress b.data
  Wire.encodeLength b.count ++ Wire.encodeLength payload.length ++ payload ++ h.marker.bytes

/-- Takes a payload of so many bytes and the marker after it, or nothing if both are not there. -/
def readPayload (marker : Marker) (size : Nat) : Wire.Reader Bytes := fun bytes =>
  let payload := bytes.take size
  let rest := bytes.drop size
  let ending := rest.take Marker.size
  -- A block that is cut off is told from one that ends in the marker of another log.
  if payload.length < size ∨ ending.length < Marker.size then (.error .endOfData, bytes)
  else if ending ≠ marker.bytes then (.error (.malformed .foreignMarker), bytes)
  else (.ok payload, rest.drop Marker.size)

def readOne (h : Header) : Wire.Reader Block := do
  let count ← Wire.length
  let size ← Wire.length
  let payload ← readPayload h.marker size
  let data ← Action.ofExcept (h.codec.decompress payload)
  return ⟨count, data⟩

/-- Reads the next block; at the end of the bytes there is none. -/
def read (h : Header) : Wire.Reader (Option Block) := fun bytes =>
  match bytes with
  | [] => (.ok none, [])
  | b :: rest => (readOne h >>= fun block => Action.done (some block)) (b :: rest)

def datums (schema : Schema) (b : Block) : Except FormatError (List Datum) :=
  match Action.times (Datum.read schema) b.count b.data with
  | (.ok found, []) => .ok found
  | (.ok _, rest) => .error (.malformed (.trailing rest.length))
  | (.error e, _) => .error e

end Block

/-! ## All blocks -/

/-- The blocks at the front of some bytes. -/
structure Blocks where
  found : List Block
  rest : Bytes
  /-- Why no block can be read from these bytes, unless there are none. -/
  stop : Option FormatError

namespace Header

/-- The blocks at the front of some bytes, after those already found, last first. -/
def blocksAfter (h : Header) (before : List Block) : Nat → Bytes → Blocks
  | 0, bytes => ⟨before.reverse, bytes, some .endOfData⟩
  | turns + 1, bytes =>
    match Block.read h bytes with
    | (.ok none, _) => ⟨before.reverse, bytes, none⟩
    | (.ok (some block), rest) => blocksAfter h (block :: before) turns rest
    | (.error e, _) => ⟨before.reverse, bytes, some e⟩

def blocks (h : Header) (body : Bytes) : Blocks := blocksAfter h [] (body.length + 1) body

/-- The records of a body, which must be blocks up to its end. -/
def datums (h : Header) (body : Bytes) : Except FormatError (List Datum) := do
  let blocks := h.blocks body
  let found ← blocks.found.mapM (Block.datums h.schema)
  -- A fault in a record comes before the one that ended the scan, since it stands before it.
  match blocks.stop with
  | some e => throw e
  | none => return found.flatten

/-- How many bytes of a body its blocks take up. -/
def intact (h : Header) (body : Bytes) : Nat := body.length - (h.blocks body).rest.length

end Header

end DeviceLog
