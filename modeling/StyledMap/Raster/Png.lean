import StyledMap.Raster.Checksum
import StyledMap.Raster.Image

/-! Images as PNG files. Pixels have eight bits a channel and an opacity, rows are not filtered, and
the data is stored in blocks without compression. `read?` takes such files apart again. -/
namespace StyledMap.Png

def signature : ByteArray := ⟨#[0x89, 0x50, 0x4E, 0x47, 0x0D, 0x0A, 0x1A, 0x0A]⟩

/-- Four bytes, the highest first. -/
def word (n : UInt32) : ByteArray :=
  ⟨#[(n >>> 24).toUInt8, (n >>> 16).toUInt8, (n >>> 8).toUInt8, n.toUInt8]⟩

/-- Two bytes, the lowest first. -/
def lowWord (n : Nat) : ByteArray := ⟨#[n.toUInt8, (n / 256).toUInt8]⟩

def chunk (kind : String) (data : ByteArray) : ByteArray :=
  let body := kind.toUTF8 ++ data
  word data.size.toUInt32 ++ body ++ word (Checksum.crc32 body)

/-- Size, eight bits a channel, colour with opacity, and the only methods there are. -/
def header (i : Image) : ByteArray :=
  word i.width.toUInt32 ++ word i.height.toUInt32 ++ ⟨#[8, 6, 0, 0, 0]⟩

/-- The last `left` of `rows` rows, each behind a byte that says it is not filtered. -/
def scanLines (pixels : ByteArray) (stride rows : Nat) (done : ByteArray) : Nat → ByteArray
  | 0 => done
  | left + 1 =>
    let y := rows - (left + 1)
    scanLines pixels stride rows (done.push 0 ++ pixels.extract (y * stride) ((y + 1) * stride)) left

/-- The longest stored block. -/
def blockSize : Nat := 65535

/-- The data from `start` on, in stored blocks; `left` blocks may follow this one. -/
def storedBlocks (data : ByteArray) (start : Nat) (done : ByteArray) : Nat → ByteArray
  | 0 => done
  | left + 1 =>
    let stop := min (start + blockSize) data.size
    let size := stop - start
    let last : UInt8 := if stop = data.size then 1 else 0
    let block := done.push last ++ lowWord size ++ lowWord (65535 - size) ++ data.extract start stop
    if stop = data.size then block else storedBlocks data stop block left

/-- Data in the frame of a compressed stream. -/
def stream (data : ByteArray) : ByteArray :=
  storedBlocks data 0 ⟨#[0x78, 0x01]⟩ (data.size / blockSize + 1) ++ word (Checksum.adler32 data)

def write (i : Image) : ByteArray :=
  let lines := scanLines i.pixels (4 * i.width) i.height ByteArray.empty i.height
  signature ++ chunk "IHDR" (header i) ++ chunk "IDAT" (stream lines) ++ chunk "IEND" ByteArray.empty

def wordAt (b : ByteArray) (i : Nat) : Nat :=
  (b[i]?.getD 0).toNat * 2 ^ 24 + (b[i + 1]?.getD 0).toNat * 2 ^ 16 +
    (b[i + 2]?.getD 0).toNat * 2 ^ 8 + (b[i + 3]?.getD 0).toNat

def lowWordAt (b : ByteArray) (i : Nat) : Nat :=
  (b[i]?.getD 0).toNat + (b[i + 1]?.getD 0).toNat * 256

/-- The data of the chunks of one kind, from place `i` on, while `left` chunks may follow. -/
def chunksOf (kind : ByteArray) (b : ByteArray) (i : Nat) (done : ByteArray) : Nat → ByteArray
  | 0 => done
  | left + 1 =>
    if b.size < i + 12 then done
    else
      let size := wordAt b i
      let data := if b.extract (i + 4) (i + 8) == kind then b.extract (i + 8) (i + 8 + size)
        else ByteArray.empty
      chunksOf kind b (i + 12 + size) (done ++ data) left

def chunks (kind : String) (b : ByteArray) : ByteArray :=
  chunksOf kind.toUTF8 b signature.size ByteArray.empty b.size

/-- The data of stored blocks from place `i` on. -/
def unstored? (b : ByteArray) (i : Nat) (done : ByteArray) : Nat → Option ByteArray
  | 0 => none
  | left + 1 =>
    let size := lowWordAt b (i + 1)
    let more := done ++ b.extract (i + 5) (i + 5 + size)
    match b[i]? with
    | some 1 => some more
    | some 0 => unstored? b (i + 5 + size) more left
    | _ => none

/-- The rows behind their filter bytes. -/
def unfiltered (lines : ByteArray) (stride rows : Nat) (done : ByteArray) : Nat → ByteArray
  | 0 => done
  | left + 1 =>
    let start := (rows - (left + 1)) * (stride + 1) + 1
    unfiltered lines stride rows (done ++ lines.extract start (start + stride)) left

/-- The image in a file that `write` makes. -/
def read? (b : ByteArray) : Option Image := do
  if b.extract 0 signature.size != signature then none
  let head := chunks "IHDR" b
  let width := wordAt head 0
  let height := wordAt head 4
  let data := chunks "IDAT" b
  let lines ← unstored? data 2 ByteArray.empty data.size
  let pixels := unfiltered lines (4 * width) height ByteArray.empty height
  if h : pixels.size = 4 * (width * height) then some ⟨width, height, pixels, h⟩ else none

end StyledMap.Png
