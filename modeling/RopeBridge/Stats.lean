import RopeBridge.Rope.Ledger

/-! Counters of a bridge at one moment, as a report in columns and as JSON text. -/

namespace RopeBridge

structure ScanCounts where
  codeRangeScans : Nat := 0
  characterLengthScans : Nat := 0
  flattens : Nat := 0
deriving DecidableEq, Inhabited

namespace ScanCounts

def ofLog (log : List (Work × NodeId)) : ScanCounts where
  codeRangeScans := log.countP (·.1 = .codeRangeScan)
  characterLengthScans := log.countP (·.1 = .characterCount)
  flattens := log.countP (·.1 = .flatten)

def add (a b : ScanCounts) : ScanCounts where
  codeRangeScans := a.codeRangeScans + b.codeRangeScans
  characterLengthScans := a.characterLengthScans + b.characterLengthScans
  flattens := a.flattens + b.flattens

end ScanCounts

structure HandleStats where
  /-- Values with an entry in the table. -/
  liveWrappers : Nat := 0
  liveHandles : Nat := 0
  blocks : Nat := 0
  freeBlocks : Nat := 0
  /-- Handles given out so far, if they are counted. -/
  allocations : Nat := 0
deriving DecidableEq, Inhabited

structure BridgeStats where
  handles : HandleStats := {}
  markers : Nat := 0
  markerRuns : Nat := 0
  markingPending : Bool := false
  pendingFinalizers : Nat := 0
  finalized : Nat := 0
  symbols : Nat := 0
  scans : ScanCounts := {}
deriving DecidableEq, Inhabited

namespace BridgeStats

def spaces (n : Nat) : String := String.ofList (List.replicate n ' ')

/-- A label in 24 columns and a value flush right in 10. -/
def row (label value : String) : String :=
  label ++ spaces (24 - label.length) ++ " " ++ spaces (10 - value.length) ++ value ++ "\n"

def countRow (label : String) (n : Nat) : String := row label (toString n)

def rule : String := String.ofList (List.replicate 35 '-') ++ "\n"

def report (s : BridgeStats) : String := String.join [
  "=== Handle Table ===\n",
  countRow "Live wrappers" s.handles.liveWrappers,
  countRow "Live handles" s.handles.liveHandles,
  countRow "Blocks" s.handles.blocks,
  countRow "Free blocks" s.handles.freeBlocks,
  countRow "Handle allocations" s.handles.allocations,
  "\n=== Marking ===\n",
  countRow "Markers" s.markers,
  countRow "Marker runs" s.markerRuns,
  row "Pending" (if s.markingPending then "yes" else "no"),
  countRow "Pending finalizers" s.pendingFinalizers,
  countRow "Finalized" s.finalized,
  "\n=== Rope Scans ===\n",
  row "Kind" "Count",
  rule,
  countRow "Code range" s.scans.codeRangeScans,
  countRow "Character length" s.scans.characterLengthScans,
  countRow "Flatten" s.scans.flattens,
  rule,
  countRow "Symbols" s.symbols]

/-- A JSON object with one member a line, below a line indented by `indent`. -/
def jsonObject (indent : Nat) (members : List (String × String)) : String :=
  let lines := members.map fun (name, value) =>
    spaces (indent + 2) ++ "\"" ++ name ++ "\": " ++ value
  "\x7b\n" ++ ",\n".intercalate lines ++ "\n" ++ spaces indent ++ "\x7d"

def json (s : BridgeStats) : String := jsonObject 0 [
  ("handles", jsonObject 2 [
    ("live_wrappers", toString s.handles.liveWrappers),
    ("live_handles", toString s.handles.liveHandles),
    ("blocks", toString s.handles.blocks),
    ("free_blocks", toString s.handles.freeBlocks),
    ("total_handle_allocations", toString s.handles.allocations)]),
  ("markers", toString s.markers),
  ("marker_runs", toString s.markerRuns),
  ("marking_pending", toString s.markingPending),
  ("pending_finalizers", toString s.pendingFinalizers),
  ("total_finalized", toString s.finalized),
  ("symbols", toString s.symbols),
  ("scans", jsonObject 2 [
    ("code_range_scans", toString s.scans.codeRangeScans),
    ("character_length_scans", toString s.scans.characterLengthScans),
    ("flattens", toString s.scans.flattens)])]

end BridgeStats

end RopeBridge
