import SimpleVm.Common.CString

/-!
# String lists

The lists of strings that the command line keeps are never empty: they are
made from one string, or by splitting one.
-/

namespace SimpleVm

structure StringList where
  first : CString
  more : List CString
  deriving DecidableEq

namespace StringList

def toList (lst : StringList) : List CString := lst.first :: lst.more

def singleton (str : CString) : StringList := ⟨str, []⟩

def cons (str : CString) (lst : StringList) : StringList := ⟨str, lst.toList⟩

/-- `append_string_list_list` -/
def append (dest src : StringList) : StringList := ⟨dest.first, dest.more ++ src.toList⟩

/-- The piece before the next separator, and the rest of the string. A
separator at the very end makes no empty piece behind it. -/
def splitFrom (ch : UInt8) : List UInt8 → List UInt8 → StringList
  | piece, [] => singleton (CString.read piece)
  | piece, b :: rest =>
      if b = ch then
        if rest = [] then singleton (CString.read piece)
        else cons (CString.read piece) (splitFrom ch [] rest)
      else splitFrom ch (piece ++ [b]) rest

def splitString (str : CString) (ch : UInt8) : StringList := splitFrom ch [] str.bytes

end StringList

end SimpleVm
