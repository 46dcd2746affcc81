import SimpleVm.Common.Errors
import SimpleVm.Common.StringList

/-!
# The command line

The table of options is a list of entries, searched from the front, and the
environment is appended to it before the arguments are parsed. A parser gets
the element it is to parse without its dashes, and the element behind it,
which it may consume as a value. A callback that returns consumes nothing, so
the loop comes to the same element again.
-/

namespace SimpleVm

/-- The bits of `cmdline_type_t` that the parser looks at. -/
structure CmdType where
  args : Bool := false
  list : Bool := false
  anon : Bool := false
  switch : Bool := false
  reqd : Bool := false
  seen : Bool := false
  deriving DecidableEq

inductive Callback where
  | exits
  | returns
  deriving DecidableEq

structure CmdlineEntry where
  shortOpt : ℤ
  longOpt : Option CString
  name : Option CString
  value : Option StringList
  cb : Option Callback
  type : CmdType
  deriving DecidableEq

/-- How many elements a parser has consumed. -/
inductive Consumed where
  | nothing
  | element
  | withNext
  deriving DecidableEq

/-- The value of a `char`, which is signed. -/
def charInt (b : UInt8) : ℤ := if b < 128 then b.toNat else b.toNat - 256

namespace Cmdline

/-- The entry that `add_cmdline` appends to the table. -/
def addCmdline (shortOpt : ℤ) (longOpt name defVal : Option CString) (cb : Option Callback)
    (type : CmdType) : CmdlineEntry where
  shortOpt := shortOpt
  longOpt := longOpt
  name := name
  value := defVal.map StringList.singleton
  cb := cb
  type := { type with args := type.args || type.list }

/-- The first entry that passes, and its place in the table. -/
def findEntry (test : CmdlineEntry → Bool) : List CmdlineEntry → Option (ℕ × CmdlineEntry)
  | [] => none
  | item :: args =>
      if test item then some (0, item)
      else (findEntry test args).map fun r => (r.1 + 1, r.2)

def getShortOpt (args : List CmdlineEntry) (ch : ℤ) : Option (ℕ × CmdlineEntry) :=
  findEntry (fun item => item.shortOpt = ch) args

def getLongOpt (args : List CmdlineEntry) (str : CString) : Option (ℕ × CmdlineEntry) :=
  findEntry (fun item => item.longOpt = some str) args

def setSeen (item : CmdlineEntry) : CmdlineEntry :=
  { item with type := { item.type with seen := true } }

def addCmdlineArg (item : CmdlineEntry) (str : CString) : CmdlineEntry :=
  if item.type.list then
    match item.value with
    | some value => { item with value := some (value.append (StringList.splitString str 58)) }
    | none => { item with value := some (StringList.splitString str 58) }
  else
    match item.value with
    | some value => { item with value := some { value with first := str } }
    | none => { item with value := some (StringList.singleton str) }

/-- An entry of the environment goes through a buffer of 1024 bytes, and a
longer one is not terminated there. -/
def storeEntry (entry : CString) : Except Halt (List CmdlineEntry) :=
  if 1024 ≤ entry.strlen then .error .invalidAccess
  else
    match entry.bytes.dropWhile (· ≠ 61) with
    | [] => .ok []
    | _ :: head =>
        let value :=
          if head.head? = some 58 then StringList.singleton (CString.read head)
          else StringList.splitString (CString.read head) 58
        .ok [⟨0, none, some (CString.read (entry.bytes.takeWhile (· ≠ 61))), some value, none, {}⟩]

def storeEnvironment : List CString → Except Halt (List CmdlineEntry)
  | [] => .ok []
  | entry :: env => do
      let head ← storeEntry entry
      let tail ← storeEnvironment env
      .ok (head ++ tail)

/-- What follows the letter in its own element. A lone `=` is the argument itself. -/
def shortArgument : List UInt8 → Option CString
  | [] => none
  | 61 :: b :: str => some (CString.read (b :: str))
  | str => some (CString.read str)

/-- The message for a missing argument reads the element through `NULL`. In a
lone dash the terminator is looked up as a letter, as every entry without one
has it, and what stands behind the terminator is read next. -/
def parseShortOption (next : Option CString) :
    List CmdlineEntry → List UInt8 → Except Halt (List CmdlineEntry × Consumed)
  | args, [] =>
      match getShortOpt args 0 with
      | none => .error .exit
      | some (_, item) =>
          match item.cb with
          | some .exits => .error .exit
          | some .returns => .ok (args, .nothing)
          | none => .error .invalidAccess
  | args, b :: str =>
      match getShortOpt args (charInt b) with
      | none => .error .exit
      | some (i, item) =>
          match item.cb with
          | some .exits => .error .exit
          | some .returns => .ok (args, .nothing)
          | none =>
              let item := setSeen item
              if item.type.args then
                match shortArgument str with
                | some arg => .ok (args.set i (addCmdlineArg item arg), .element)
                | none =>
                    match next with
                    | some arg => .ok (args.set i (addCmdlineArg item arg), .withNext)
                    | none => .error .invalidAccess
              else if str = [] then .ok (args.set i item, .element)
              else parseShortOption next (args.set i item) str

def parseLongOption (next : Option CString) (args : List CmdlineEntry) (str : List UInt8) :
    Except Halt (List CmdlineEntry × Consumed) :=
  match getLongOpt args (CString.read (str.takeWhile (· ≠ 61))) with
  | none => .error .exit
  | some (i, item) =>
      match item.cb with
      | some .exits => .error .exit
      | some .returns => .ok (args, .nothing)
      | none =>
          let item := setSeen item
          if item.type.args then
            match str.dropWhile (· ≠ 61) with
            | [] =>
                match next with
                | some arg => .ok (args.set i (addCmdlineArg item arg), .withNext)
                | none => .error .exit
            | [_] => .error .exit
            | _ :: arg => .ok (args.set i (addCmdlineArg item (CString.read arg)), .element)
          else .ok (args.set i item, .element)

def parseListItem (args : List CmdlineEntry) (str : CString) :
    Except Halt (List CmdlineEntry × Consumed) :=
  match findEntry (fun item => item.type.anon) args with
  | none => .error .exit
  | some (i, item) => .ok (args.set i (setSeen (addCmdlineArg item str)), .element)

/-- The element where the loop stands, by its first two characters. -/
def parseElement (next : Option CString) (args : List CmdlineEntry) (ptr : CString) :
    Except Halt (List CmdlineEntry × Consumed) :=
  match ptr.bytes with
  | 45 :: 45 :: str => parseLongOption next args str
  | 45 :: str => parseShortOption next args str
  | _ => parseListItem args ptr

/-- The loop over the elements, with the element behind them in `next`, and
whether that one has been consumed too. After the flag the first element
has been consumed as a value already. -/
def parseElements (next : Option CString) :
    List CmdlineEntry → Bool → List CString → Except Halt (List CmdlineEntry × Bool)
  | args, skip, [] => .ok (args, skip)
  | args, true, _ :: cmds => parseElements next args false cmds
  | args, false, ptr :: cmds => do
      let (args, consumed) ← parseElement (cmds.head?.or next) args ptr
      match consumed with
      | .nothing => .error .diverges
      | .element => parseElements next args false cmds
      | .withNext => parseElements next args true cmds

def parseCmdline (table : List CmdlineEntry) (env argv : List CString) :
    Except Halt (List CmdlineEntry) := do
  let vars ← storeEnvironment env
  let (args, _) ← parseElements none (table ++ vars) false argv.tail
  if args.any (fun opt => opt.type.reqd && !opt.type.seen) then .error .exit
  else .ok args

def getOptByName (args : List CmdlineEntry) (str : CString) : Option CmdlineEntry :=
  (findEntry (fun item => item.name = some str) args).map Prod.snd

/-- `iterate_string_list`; where there is no list there is nothing to iterate. -/
def iterateStringList (lst : Option StringList) (post : ℤ) : Option CString × ℤ :=
  match lst with
  | none => (none, post)
  | some lst =>
      if 0 ≤ post ∧ post < lst.toList.length then (lst.toList[post.toNat]?, post + 1)
      else (none, post)

def getCmdOpt (args : List CmdlineEntry) (name : CString) : Option CString :=
  match getOptByName args name with
  | none => none
  | some opt =>
      if opt.type.switch then some (CString.read (if opt.type.seen then [49] else [48]))
      else (iterateStringList opt.value 0).1

def iterateCmdOpt (args : List CmdlineEntry) (name : CString) (mark : ℤ) : Option CString × ℤ :=
  match getOptByName args name with
  | none => (none, mark)
  | some opt => iterateStringList opt.value mark

/-- The loop of `in_cmd_list`, for at most so many elements. -/
def inCmdListFrom (args : List CmdlineEntry) (name item : CString) : ℕ → ℤ → ℤ
  | 0, _ => 0
  | n + 1, mark =>
      match iterateCmdOpt args name mark with
      | (none, _) => 0
      | (some str, mark) => if str = item then 1 else inCmdListFrom args name item n mark

/-- The loop ends behind the last element, if not before. -/
def inCmdList (args : List CmdlineEntry) (name item : CString) : ℤ :=
  match (getOptByName args name).bind CmdlineEntry.value with
  | none => 0
  | some value => inCmdListFrom args name item (value.toList.length + 1) 0

/-- The options of the test program: `-v`, `--verbosity`, `-x`, `-L`, `-h`, `--help`,
`-V`, `--version` and a file name. -/
def createConfig : List CmdlineEntry :=
  [addCmdline 118 (some (CString.read [118, 101, 114, 98, 111, 115, 105, 116, 121]))
      (some (CString.read [118, 101, 114, 98, 111, 115, 105, 116, 121])) (some (CString.read [48])) none
      { args := true },
    addCmdline 120 none (some (CString.read [101, 120, 120])) (some (CString.read [48])) none
      { switch := true },
    addCmdline 76 none (some (CString.read [108, 115, 116])) none none
      { list := true, args := true },
    addCmdline 104 (some (CString.read [104, 101, 108, 112])) none none (some .exits) {},
    addCmdline 86 (some (CString.read [118, 101, 114, 115, 105, 111, 110])) none none
      (some .exits) {},
    addCmdline 0 none none none none {},
    addCmdline 0 none (some (CString.read [102, 105, 108, 101, 115])) none none
      { reqd := true, anon := true }]

end Cmdline

end SimpleVm
