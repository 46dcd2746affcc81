import SimpleVm.Common.CString
import SimpleVm.Common.Errors

/-!
# The hash table of `hash.c`

Open addressing with tombstones: a removed node stays in its bucket with a
`NULL` key. The capacity is an `int` that only ever doubles; doubling the
last power of two in range asks for a negative number of buckets, which no
allocation serves.
-/

namespace SimpleVm

universe u

structure HashNode (α : Type u) where
  key : Option CString
  data : α
  deriving DecidableEq

structure HashTable (α : Type u) where
  table : List (Option (HashNode α))
  cap : ℕ
  count : ℕ
  tombstones : ℤ
  deriving DecidableEq

variable {α : Type u}

def hashFunc (key : CString) : UInt32 :=
  let slen := (toInt key.strlen).toNat
  (key.bytes.take slen).foldl (fun hash c => (hash ^^^ c.toUInt32) * 16777619) 2166136261

namespace HashTable

def bucket (tab : HashTable α) (i : ℕ) : Option (HashNode α) := tab.table.getD i none

/-- How the `for` loop of `find_slot` is left. -/
inductive Pass where
  | slot (hash : ℕ) (tombstones : ℤ)
  | exhausted (hash : ℕ)

def forLoop (tab : HashTable α) (key : CString) (inc : ℕ) : ℕ → ℕ → Pass
  | 0, hash => .exhausted hash
  | n + 1, hash =>
      match tab.bucket hash with
      | none => .slot hash tab.tombstones
      | some ⟨none, _⟩ => .slot hash (tab.tombstones - 1)
      | some ⟨some k, _⟩ =>
          if k = key then .slot hash tab.tombstones
          else forLoop tab key inc n ((hash + inc) &&& (tab.cap - 1))

/-- The `do … while(true)` loop, for so many rounds. Every round after the
first one goes through the table by steps of one. -/
def doLoop (tab : HashTable α) (key : CString) : ℕ → ℕ → ℕ → Except Halt (ℕ × HashTable α)
  | 0, _, _ => .error .diverges
  | rounds + 1, inc, hash =>
      match forLoop tab key inc tab.cap hash with
      | .slot hash tombstones => .ok (hash, { tab with tombstones := tombstones })
      | .exhausted hash => doLoop tab key rounds 1 hash

/-- Two rounds decide: a third one would only repeat the second. -/
def findSlot (tab : HashTable α) (key : CString) : Except Halt (ℕ × HashTable α) :=
  let hash := (hashFunc key).toNat &&& (tab.cap - 1)
  let inc := hash &&& 0x0F
  let inc := if inc = 0 then 1 else inc
  match tab.bucket hash with
  | none => .ok (hash, tab)
  | some _ => doLoop tab key 2 inc hash

/-- The body of the loop of `rehash_table` for one bucket of the old table. -/
def rehashBucket (tab : HashTable α) : Option (HashNode α) → Except Halt (HashTable α)
  | some ⟨some key, data⟩ => do
      let (slot, tab) ← findSlot tab key
      .ok { tab with
        table := tab.table.set slot (some ⟨some key, data⟩)
        count := tab.count + 1 }
  | _ => .ok tab

/-- The test is `count * 1.75 >= cap`, exact in a `double`. -/
def rehashTable (tab : HashTable α) : Except Halt (HashTable α) :=
  if 4 * tab.cap ≤ 7 * tab.count then
    if 2 ^ 30 ≤ tab.cap then .error .fatal
    else
      tab.table.foldlM rehashBucket
        { table := List.replicate (2 * tab.cap) none
          cap := 2 * tab.cap
          count := 0
          tombstones := 0 }
  else .ok tab

def createHashtable : HashTable α where
  table := List.replicate 4 none
  cap := 4
  count := 0
  tombstones := 0

/-- Returns what the `int` of the source says: 1 for a new key, 0 for one already there. -/
def insertHashtable (tab : HashTable α) (key : CString) (data : α) :
    Except Halt (ℤ × HashTable α) := do
  let tab ← rehashTable tab
  let (slot, tab) ← findSlot tab key
  match tab.bucket slot with
  | some ⟨some _, _⟩ => .ok (0, tab)
  | _ => .ok (1, { tab with
      table := tab.table.set slot (some ⟨some key, data⟩)
      count := tab.count + 1 })

/-- `some data` stands for the return value 1, `none` for 0 with `*data = NULL`. -/
def findHashtable (tab : HashTable α) (key : CString) : Except Halt (Option α × HashTable α) := do
  let (slot, tab) ← findSlot tab key
  match tab.bucket slot with
  | some ⟨some k, data⟩ => .ok (if k = key then some data else none, tab)
  | _ => .ok (none, tab)

def removeHashtable (tab : HashTable α) (key : CString) : Except Halt (HashTable α) := do
  let (slot, tab) ← findSlot tab key
  match tab.bucket slot with
  | some ⟨some k, data⟩ =>
      if k = key then
        .ok { tab with
          table := tab.table.set slot (some ⟨none, data⟩)
          count := tab.count - 1
          tombstones := tab.tombstones + 1 }
      else .ok tab
  | _ => .ok tab

def hashNameExists (tab : HashTable α) (key : CString) : Except Halt (ℤ × HashTable α) := do
  let (slot, tab) ← findSlot tab key
  match tab.bucket slot with
  | some ⟨some k, _⟩ => .ok (if k = key then 1 else 0, tab)
  | _ => .ok (0, tab)

end HashTable

end SimpleVm
