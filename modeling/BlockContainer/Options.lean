import BlockContainer.FileTree

/-! # Options of a run

What to read, how to cut it into bundles and how to share the bundles among threads. A
list of inputs can be taken from a file: one a line, without the blanks around it; empty
lines and lines that begin with `#` do not count.
-/
namespace BlockContainer

structure Options where
  inputPattern : Bytes := []
  inputFiles : List Bytes := []
  desiredBundleSize : UInt64 := 67108864
  minBundleSize : UInt64 := 128000
  scanSize : UInt64 := 4096
  threads : UInt32 := 1
  dynamicSplitting : Bool := false
  splitCheckInterval : UInt64 := 100
  scanSize_pos : 0 < scanSize := by decide

namespace Options

def standard : Options := {}

instance : Inhabited Options := ⟨standard⟩

def withScanSize (o : Options) (size : UInt64) : Except Error Options :=
  if h : 0 < size then .ok { o with scanSize := size, scanSize_pos := h }
  else .error (.argument .scanBufferEmpty)

def lines (text : Bytes) : List Bytes :=
  match text with
  | [] => []
  | c :: rest =>
    if c = 0x0a then [] :: lines rest
    else match lines rest with
      | [] => [[c]]
      | line :: more => (c :: line) :: more

def isBlank (c : UInt8) : Bool := c == 0x20 || (0x09 ≤ c && c ≤ 0x0d)

def trim (isBlank : UInt8 → Bool) (text : Bytes) : Bytes :=
  ((text.dropWhile isBlank).reverse.dropWhile isBlank).reverse

def listedInputs (text : Bytes) : List Bytes :=
  ((lines text).map (trim isBlank)).filter fun line => !line.isEmpty && line.head? != some 0x23

def readInputList (o : Options) (t : FileTree) (path : Bytes) : Except Error Options :=
  match t.read path with
  | .ok text => .ok { o with inputFiles := listedInputs text }
  | .error reason => .error (.service (.openList path reason))

def line (name value : Bytes) : Bytes := "  " ++ name ++ ": " ++ value ++ "\n"

def flag (b : Bool) : Bytes := if b then "true" else "false"

def text (o : Options) : Bytes :=
  "PipelineOptions:\n" ++ line "input_pattern" o.inputPattern ++
  line "input_files" (Bytes.decimal o.inputFiles.length) ++
  line "desired_bundle_size" (Bytes.decimal o.desiredBundleSize.toNat) ++
  line "min_bundle_size" (Bytes.decimal o.minBundleSize.toNat) ++
  line "sync_scan_buffer_size" (Bytes.decimal o.scanSize.toNat) ++
  line "nthreads" (Bytes.decimal o.threads.toNat) ++
  line "dynamic_splitting" (flag o.dynamicSplitting) ++
  line "split_check_interval_ms" (Bytes.decimal o.splitCheckInterval.toNat)

end Options
end BlockContainer
