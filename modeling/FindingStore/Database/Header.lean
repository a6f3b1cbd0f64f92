import FindingStore.Database.Session

namespace FindingStore.Header

def magic : Bytes :=
  [0x53, 0x51, 0x4C, 0x69, 0x74, 0x65, 0x20, 0x66, 0x6F, 0x72, 0x6D, 0x61, 0x74, 0x20, 0x33, 0x00]

def fractions : Bytes := [0x40, 0x20, 0x20]

/-- The number in some bytes, highest byte first; bytes behind the end of the file are zero. -/
def number (content : Bytes) (start width : Nat) : Nat :=
  (List.range width).foldl (fun n i ↦ n * 0x100 + (content[start + i]?.getD 0).toNat) 0

/-- The size of a page in bytes. The largest size does not fit the two bytes and is written as
one. -/
def pageSize (content : Bytes) : Nat := number content 16 1 * 0x100 + number content 17 1 * 0x10000

def isPageSize (n : Nat) : Bool :=
  decide (0x100 < n) && decide (n ≤ 0x10000) && (n &&& (n - 1)) == 0

/-- The number of pages: the one that is written down, if it was written with the last change, and
otherwise that of the file. -/
def pageCount (content : Bytes) (inFile : Nat) : Nat :=
  let written := number content 28 4
  if written = 0 ∨ number content 24 4 ≠ number content 92 4 then inFile else written

def minUsable : Nat := 480

def leafPage : Nat := 0x0D

/-- What a file holds. A single byte counts for nothing. -/
def contents (content : Bytes) : Contents :=
  let size := pageSize content
  let inFile := (content.length + size - 1) / size
  if content.length ≤ 1 then .blank
  else if !magic.isPrefixOf content || decide (2 < number content 19 1) ||
    (content.drop 21).take 3 != fractions || !isPageSize size then .unusable .notADatabase
  else if inFile < pageCount content inFile then .unusable .malformed
  else if size - number content 20 1 < minUsable then .unusable .notADatabase
  else if number content 100 1 = leafPage ∧ number content 103 2 = 0 then .bare
  else .unusable .malformed

def usesLog (content : Bytes) : Bool := contents content == .bare && number content 19 1 == 2

def database (content : Bytes) : Database :=
  let contents := contents content
  { contents, log := if usesLog content then some { stored := contents } else none }

end FindingStore.Header
