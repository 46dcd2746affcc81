import SimpleVm.Assembler.Dump
import SimpleVm.Assembler.Options
import SimpleVm.Assembler.SourceFiles

/-!
# From the command line to the tables

The options name a file, the file and those it includes are a program, and the
tables that are printed are those of all its definitions.
-/

namespace SimpleVm.Syntax

open Cmdline FileIo

end SimpleVm.Syntax
