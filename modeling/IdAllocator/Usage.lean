/-
The command line of the server, `parse_options` of `usage.c`.

The scanner is driven by tables with a state for every character of every
option.  What it reads is a grammar of words: an option is a word, its value is
the next word, and the options of a command are those of the stage that the
command leads to.
-/
import IdAllocator.Dict
import IdAllocator.ParseAddr

namespace IdAllocator

open Getopt TableScanner

/-! ### The scanner -/

def BUFLEN : Nat := 1024

/-- The fields of `options_t` that the scanner writes; a string is nothing for NULL. -/
structure ServerOptions where
  drop : Bool := false
  join : Bool := false
  leave : Bool := false
  start : Bool := false
  daemonize : Bool := false
  debug : Bool := false
  help : Bool := false
  version : Bool := false
  dbSize : Option Text := none
  host : Option Text := none
  id : Option Text := none
  path : Option Text := none
  pidFile : Option Text := none
  raftPort : Option Text := none
  peer : Option Text := none
deriving Repr, DecidableEq

/-- `struct params` without its state.  A byte of the buffer that nothing has been written to is
`none`. -/
structure Params where
  opt : ServerOptions
  buffer : List (Option UInt8)
  buflen : Nat

def paramsActions : List Nat := [
  0, 1, 0, 1, 3, 1, 4, 1, 5, 1, 6, 1, 7, 1, 8, 1,
  9, 1, 10, 2, 1, 11, 2, 1, 12, 2, 1, 13, 2, 1, 14, 2,
  1, 15, 2, 1, 16, 2, 1, 17, 2, 1, 18, 2, 2, 0]

def paramsKeyOffsets : List Nat := [
  0, 0, 9, 13, 16, 17, 18, 19, 20, 21, 22, 23, 24, 31, 34, 35,
  36, 37, 38, 39, 40, 42, 43, 44, 45, 46, 47, 48, 49, 50, 51, 52,
  53, 54, 55, 56, 57, 58, 59, 60, 61, 62, 63, 64, 65, 66, 67, 68,
  70, 71, 72, 73, 74, 75, 76, 77, 78, 79, 80, 81, 82, 83, 84, 87,
  89, 90, 91, 92, 93, 94, 95, 96, 97, 98, 99, 100, 101, 102, 103, 104,
  105, 106, 107, 109, 110, 111, 112, 113, 114, 123, 127, 130, 131, 132, 133, 134,
  135, 136, 137, 138, 139, 140, 141, 142, 143, 144, 145, 146, 147, 148, 149, 150,
  152, 153, 154, 155, 156, 157, 158, 159, 160, 161, 162, 163, 164, 165, 166, 167,
  169, 170, 171, 172, 173, 174, 175, 176, 177, 178, 179, 180, 181, 182, 183, 184,
  185, 186, 187, 188, 189, 190, 191, 192, 193, 194, 195, 196, 197, 198, 199, 200,
  201, 202, 203, 204, 209, 210, 210, 211]

def paramsTransKeys : List Int := [
  45, 72, 80, 100, 103, 104, 105, 115, 118, 100, 104, 112, 118, 97, 98, 101,
  101, 109, 111, 110, 105, 122, 101, 0, 45, 72, 80, 100, 103, 105, 115, 100,
  104, 112, 111, 115, 116, 0, 0, 0, 97, 105, 116, 104, 0, 0, 0, 100,
  95, 102, 105, 108, 101, 0, 0, 0, 0, 0, 0, 0, 95, 115, 105, 122,
  101, 98, 117, 103, 101, 111, 108, 112, 0, 101, 114, 115, 105, 111, 110, 0,
  114, 111, 112, 0, 45, 80, 103, 100, 112, 101, 98, 117, 103, 0, 97, 116,
  104, 0, 0, 0, 111, 105, 110, 0, 0, 0, 45, 45, 73, 105, 100, 0,
  0, 0, 45, 72, 80, 100, 103, 105, 112, 115, 116, 100, 104, 112, 114, 97,
  98, 101, 101, 109, 111, 110, 105, 122, 101, 0, 95, 115, 105, 122, 101, 0,
  0, 0, 98, 117, 103, 0, 111, 116, 115, 116, 0, 0, 0, 116, 112, 95,
  112, 111, 114, 116, 0, 0, 0, 97, 105, 116, 104, 0, 0, 0, 100, 95,
  102, 105, 108, 101, 0, 0, 0, 97, 102, 116, 95, 112, 111, 114, 116, 0,
  0, 0, 101, 97, 118, 101, 0, 116, 97, 114, 116, 0, 45, 100, 106, 108,
  115, 45, 45, 45, 0]

def paramsSingleLengths : List Nat := [
  0, 9, 4, 3, 1, 1, 1, 1, 1, 1, 1, 1, 7, 3, 1, 1,
  1, 1, 1, 1, 2, 1, 1, 1, 1, 1, 1, 1, 1, 1, 1, 1,
  1, 1, 1, 1, 1, 1, 1, 1, 1, 1, 1, 1, 1, 1, 1, 2,
  1, 1, 1, 1, 1, 1, 1, 1, 1, 1, 1, 1, 1, 1, 3, 2,
  1, 1, 1, 1, 1, 1, 1, 1, 1, 1, 1, 1, 1, 1, 1, 1,
  1, 1, 2, 1, 1, 1, 1, 1, 9, 4, 3, 1, 1, 1, 1, 1,
  1, 1, 1, 1, 1, 1, 1, 1, 1, 1, 1, 1, 1, 1, 1, 2,
  1, 1, 1, 1, 1, 1, 1, 1, 1, 1, 1, 1, 1, 1, 1, 2,
  1, 1, 1, 1, 1, 1, 1, 1, 1, 1, 1, 1, 1, 1, 1, 1,
  1, 1, 1, 1, 1, 1, 1, 1, 1, 1, 1, 1, 1, 1, 1, 1,
  1, 1, 1, 5, 1, 0, 1, 1]

def paramsRangeLengths : List Nat := [
  0, 0, 0, 0, 0, 0, 0, 0, 0, 0, 0, 0, 0, 0, 0, 0,
  0, 0, 0, 0, 0, 0, 0, 0, 0, 0, 0, 0, 0, 0, 0, 0,
  0, 0, 0, 0, 0, 0, 0, 0, 0, 0, 0, 0, 0, 0, 0, 0,
  0, 0, 0, 0, 0, 0, 0, 0, 0, 0, 0, 0, 0, 0, 0, 0,
  0, 0, 0, 0, 0, 0, 0, 0, 0, 0, 0, 0, 0, 0, 0, 0,
  0, 0, 0, 0, 0, 0, 0, 0, 0, 0, 0, 0, 0, 0, 0, 0,
  0, 0, 0, 0, 0, 0, 0, 0, 0, 0, 0, 0, 0, 0, 0, 0,
  0, 0, 0, 0, 0, 0, 0, 0, 0, 0, 0, 0, 0, 0, 0, 0,
  0, 0, 0, 0, 0, 0, 0, 0, 0, 0, 0, 0, 0, 0, 0, 0,
  0, 0, 0, 0, 0, 0, 0, 0, 0, 0, 0, 0, 0, 0, 0, 0,
  0, 0, 0, 0, 0, 0, 0, 0]

def paramsIndexOffsets : List Nat := [
  0, 0, 10, 15, 19, 21, 23, 25, 27, 29, 31, 33, 35, 43, 47, 49,
  51, 53, 55, 57, 59, 62, 64, 66, 68, 70, 72, 74, 76, 78, 80, 82,
  84, 86, 88, 90, 92, 94, 96, 98, 100, 102, 104, 106, 108, 110, 112, 114,
  117, 119, 121, 123, 125, 127, 129, 131, 133, 135, 137, 139, 141, 143, 145, 149,
  152, 154, 156, 158, 160, 162, 164, 166, 168, 170, 172, 174, 176, 178, 180, 182,
  184, 186, 188, 191, 193, 195, 197, 199, 201, 211, 216, 220, 222, 224, 226, 228,
  230, 232, 234, 236, 238, 240, 242, 244, 246, 248, 250, 252, 254, 256, 258, 260,
  263, 265, 267, 269, 271, 273, 275, 277, 279, 281, 283, 285, 287, 289, 291, 293,
  296, 298, 300, 302, 304, 306, 308, 310, 312, 314, 316, 318, 320, 322, 324, 326,
  328, 330, 332, 334, 336, 338, 340, 342, 344, 346, 348, 350, 352, 354, 356, 358,
  360, 362, 364, 366, 372, 374, 375, 377]

def paramsTransTargs : List Nat := [
  2, 17, 23, 11, 35, 50, 32, 36, 57, 0, 3, 47, 20, 51, 0, 4,
  39, 44, 0, 5, 0, 6, 0, 7, 0, 8, 0, 9, 0, 10, 0, 11,
  0, 164, 0, 13, 17, 23, 11, 35, 32, 36, 0, 3, 14, 20, 0, 15,
  0, 16, 0, 17, 0, 18, 0, 0, 19, 164, 19, 21, 26, 0, 22, 0,
  23, 0, 24, 0, 0, 25, 164, 25, 27, 0, 28, 0, 29, 0, 30, 0,
  31, 0, 32, 0, 33, 0, 0, 34, 164, 34, 164, 0, 37, 0, 0, 38,
  164, 38, 40, 0, 41, 0, 42, 0, 43, 0, 36, 0, 45, 0, 46, 0,
  35, 0, 48, 15, 0, 49, 0, 50, 0, 165, 0, 52, 0, 53, 0, 54,
  0, 55, 0, 56, 0, 57, 0, 165, 0, 59, 0, 60, 0, 61, 0, 166,
  0, 63, 72, 68, 0, 64, 69, 0, 65, 0, 66, 0, 67, 0, 68, 0,
  166, 0, 70, 0, 71, 0, 72, 0, 73, 0, 0, 74, 166, 74, 76, 0,
  77, 0, 78, 0, 79, 0, 0, 80, 81, 80, 82, 0, 83, 85, 0, 84,
  0, 85, 0, 86, 0, 0, 87, 167, 87, 89, 114, 130, 98, 110, 139, 150,
  104, 124, 0, 90, 111, 127, 142, 0, 91, 99, 107, 0, 92, 0, 93, 0,
  94, 0, 95, 0, 96, 0, 97, 0, 98, 0, 167, 0, 100, 0, 101, 0,
  102, 0, 103, 0, 104, 0, 105, 0, 0, 106, 167, 106, 108, 0, 109, 0,
  110, 0, 167, 0, 112, 117, 0, 113, 0, 114, 0, 115, 0, 0, 116, 167,
  116, 118, 0, 119, 0, 120, 0, 121, 0, 122, 0, 123, 0, 124, 0, 125,
  0, 0, 126, 167, 126, 128, 133, 0, 129, 0, 130, 0, 131, 0, 0, 132,
  167, 132, 134, 0, 135, 0, 136, 0, 137, 0, 138, 0, 139, 0, 140, 0,
  0, 141, 167, 141, 143, 0, 144, 0, 145, 0, 146, 0, 147, 0, 148, 0,
  149, 0, 150, 0, 151, 0, 0, 152, 167, 152, 154, 0, 155, 0, 156, 0,
  157, 0, 166, 0, 159, 0, 160, 0, 161, 0, 162, 0, 81, 0, 1, 58,
  75, 153, 158, 0, 12, 0, 0, 62, 0, 88, 0, 0]

def paramsTransActions : List Nat := [
  0, 0, 0, 0, 0, 0, 0, 0, 0, 0, 0, 0, 0, 0, 0, 0,
  0, 0, 0, 0, 0, 0, 0, 0, 0, 0, 0, 0, 0, 0, 0, 0,
  0, 11, 0, 0, 0, 0, 0, 0, 0, 0, 0, 0, 0, 0, 0, 0,
  0, 0, 0, 0, 0, 0, 0, 0, 43, 22, 1, 0, 0, 0, 0, 0,
  0, 0, 0, 0, 0, 43, 31, 1, 0, 0, 0, 0, 0, 0, 0, 0,
  0, 0, 0, 0, 0, 0, 0, 43, 34, 1, 13, 0, 0, 0, 0, 43,
  19, 1, 0, 0, 0, 0, 0, 0, 0, 0, 0, 0, 0, 0, 0, 0,
  0, 0, 0, 0, 0, 0, 0, 0, 0, 15, 0, 0, 0, 0, 0, 0,
  0, 0, 0, 0, 0, 0, 0, 17, 0, 0, 0, 0, 0, 0, 0, 3,
  0, 0, 0, 0, 0, 0, 0, 0, 0, 0, 0, 0, 0, 0, 0, 0,
  13, 0, 0, 0, 0, 0, 0, 0, 0, 0, 0, 43, 31, 1, 0, 0,
  0, 0, 0, 0, 5, 0, 0, 43, 40, 1, 0, 0, 0, 0, 0, 0,
  0, 0, 0, 0, 0, 0, 43, 28, 1, 0, 0, 0, 0, 0, 0, 0,
  0, 0, 0, 0, 0, 0, 0, 0, 0, 0, 0, 0, 0, 0, 0, 0,
  0, 0, 0, 0, 0, 0, 0, 0, 0, 0, 11, 0, 0, 0, 0, 0,
  0, 0, 0, 0, 0, 0, 0, 0, 0, 43, 19, 1, 0, 0, 0, 0,
  0, 0, 13, 0, 0, 0, 0, 0, 0, 0, 0, 0, 0, 0, 43, 22,
  1, 0, 0, 0, 0, 0, 0, 0, 0, 0, 0, 0, 0, 0, 0, 0,
  0, 0, 43, 25, 1, 0, 0, 0, 0, 0, 0, 0, 0, 0, 0, 43,
  31, 1, 0, 0, 0, 0, 0, 0, 0, 0, 0, 0, 0, 0, 0, 0,
  0, 43, 34, 1, 0, 0, 0, 0, 0, 0, 0, 0, 0, 0, 0, 0,
  0, 0, 0, 0, 0, 0, 0, 43, 37, 1, 0, 0, 0, 0, 0, 0,
  0, 0, 7, 0, 0, 0, 0, 0, 0, 0, 0, 0, 9, 0, 0, 0,
  0, 0, 0, 0, 0, 0, 0, 0, 0, 0, 0, 0]


/-- `strdup(fsm->buffer)`, nothing when it comes to a byte that has not been written. -/
def bufferText : List (Option UInt8) → Option Text
  | [] => none
  | none :: _ => none
  | some c :: rest => if c = 0 then some [] else (bufferText rest).map fun text => c :: text

namespace Params

/-- A character goes into the buffer as long as there is room. -/
def put (fsm : Params) (c : UInt8) : Params :=
  if fsm.buflen < BUFLEN then
    { fsm with
      buffer := fsm.buffer.set fsm.buflen (some c)
      buflen := fsm.buflen + 1 }
  else fsm

/-- A field is set to a copy of the buffer. -/
def copy (fsm : Params) (set : ServerOptions → Text → ServerOptions) : Option Params :=
  (bufferText fsm.buffer).map fun text => { fsm with opt := set fsm.opt text }

/-- The `switch` of `params_execute`; there is no case 13. -/
def act (fsm : Params) (c : UInt8) : Nat → Option Params
  | 0 => some (fsm.put c)
  | 1 => some (fsm.put 0)
  | 2 => some { fsm with buflen := 0 }
  | 3 => some { fsm with opt := { fsm.opt with drop := true } }
  | 4 => some { fsm with opt := { fsm.opt with join := true } }
  | 5 => some { fsm with opt := { fsm.opt with leave := true } }
  | 6 => some { fsm with opt := { fsm.opt with start := true } }
  | 7 => some { fsm with opt := { fsm.opt with daemonize := true } }
  | 8 => some { fsm with opt := { fsm.opt with debug := true } }
  | 9 => some { fsm with opt := { fsm.opt with help := true } }
  | 10 => some { fsm with opt := { fsm.opt with version := true } }
  | 11 => fsm.copy fun opt text => { opt with dbSize := some text }
  | 12 => fsm.copy fun opt text => { opt with host := some text }
  | 14 => fsm.copy fun opt text => { opt with id := some text }
  | 15 => fsm.copy fun opt text => { opt with path := some text }
  | 16 => fsm.copy fun opt text => { opt with pidFile := some text }
  | 17 => fsm.copy fun opt text => { opt with raftPort := some text }
  | 18 => fsm.copy fun opt text => { opt with peer := some text }
  | _ => some fsm

end Params

/-- The machine of `params_execute`.  It has no more variables once `strdup` has read beyond what
was written. -/
def paramsScanner : Scanner UInt8 (Option Params) where
  keyOffsets := paramsKeyOffsets
  transKeys := paramsTransKeys
  singleLengths := paramsSingleLengths
  rangeLengths := paramsRangeLengths
  indexOffsets := paramsIndexOffsets
  trans place := place
  transTargs := paramsTransTargs
  transActions := paramsTransActions
  actions := paramsActions
  code := charCode
  act _ c fsm a := fsm.bind fun fsm => fsm.act c a

def paramsStart : Nat := 163
def paramsFirstFinal : Nat := 163
def paramsError : Nat := 0

/-- `params_init`. -/
def paramsInit : Params where
  opt :=
    { dbSize := some (ascii ['1', '0', '0', '0'])
      host := some (ascii ['1', '2', '7', '.', '0', '.', '0', '.', '1'])
      path := some (ascii ['s', 't', 'o', 'r', 'e'])
      pidFile := some (ascii ['/', 'v', 'a', 'r', '/', 'r', 'u', 'n', '/', 'p', 'e', 'a', 'r', 'l',
        '.', 'p', 'i', 'd'])
      raftPort := some (ascii ['9', '0', '0', '0']) }
  buffer := List.replicate (BUFLEN + 1) none
  buflen := 0

/-- `params_execute` for one argument, with its end. -/
def paramsExecute (s : Nat × Option Params) (arg : CString) : Nat × Option Params :=
  paramsScanner.exec s.1 s.2 (arg.bytes ++ [0])

def paramsFinish (cs : Nat) : Int :=
  if cs = paramsError then -1
  else if paramsFirstFinal ≤ cs then 1
  else 0

/-- `parse_options` for the arguments behind the name of the program, with the options; nothing
when `strdup` has read beyond what was written. -/
def parseOptions (args : List CString) : Option (Int × ServerOptions) :=
  let s := args.foldl paramsExecute (paramsStart, some paramsInit)
  s.2.map fun fsm => (if paramsFinish s.1 ≠ 1 then -1 else 0, fsm.opt)

/-! ### The grammar -/

inductive Flag where
  | drop
  | join
  | leave
  | start
  | daemonize
  | debug
  | help
  | version
deriving Repr, DecidableEq

inductive Field where
  | dbSize
  | host
  | httpPort
  | id
  | path
  | pidFile
  | raftPort
  | peer
deriving Repr, DecidableEq

/-- What may come next: anything, the options without a command, nothing, the options of a
command that wipes the database, the id of a server, the options of a server. -/
inductive Stage where
  | command
  | rejoin
  | alone
  | wipe
  | ident
  | serve
deriving Repr, DecidableEq

/-- What a word raises, the value that follows it, and the stage behind. -/
structure Item where
  flag : Option Flag
  value : Option Field
  next : Stage
deriving Repr, DecidableEq

/-- The two names of an option. -/
def named (long : List Char) (short : Char) (item : Item) : List (Text × Item) :=
  [(ascii ('-' :: '-' :: long), item), (ascii ['-', short], item)]

/-- The options that a server has with and without a command. -/
def sharedOptions (next : Stage) : List (Text × Item) :=
  named ['d', 'a', 'e', 'm', 'o', 'n', 'i', 'z', 'e'] 'd' ⟨some .daemonize, none, next⟩ ++
  named ['d', 'b', '_', 's', 'i', 'z', 'e'] 's' ⟨none, some .dbSize, next⟩ ++
  named ['d', 'e', 'b', 'u', 'g'] 'g' ⟨some .debug, none, next⟩ ++
  named ['h', 'o', 's', 't'] 'H' ⟨none, some .host, next⟩ ++
  named ['p', 'a', 't', 'h'] 'P' ⟨none, some .path, next⟩ ++
  named ['p', 'i', 'd', '_', 'f', 'i', 'l', 'e'] 'i' ⟨none, some .pidFile, next⟩

/-- The words of a stage. -/
def Stage.grammar : Stage → List (Text × Item)
  | .command =>
      sharedOptions .rejoin ++
      named ['h', 'e', 'l', 'p'] 'h' ⟨some .help, none, .alone⟩ ++
      named ['v', 'e', 'r', 's', 'i', 'o', 'n'] 'v' ⟨some .version, none, .alone⟩ ++
      [(ascii ['s', 't', 'a', 'r', 't'], ⟨some .start, none, .ident⟩),
        (ascii ['j', 'o', 'i', 'n'], ⟨some .join, some .peer, .ident⟩),
        (ascii ['l', 'e', 'a', 'v', 'e'], ⟨some .leave, none, .wipe⟩),
        (ascii ['d', 'r', 'o', 'p'], ⟨some .drop, none, .wipe⟩)]
  | .rejoin => sharedOptions .rejoin
  | .alone => []
  | .wipe =>
      named ['p', 'a', 't', 'h'] 'P' ⟨none, some .path, .wipe⟩ ++
      named ['d', 'e', 'b', 'u', 'g'] 'g' ⟨some .debug, none, .wipe⟩
  | .ident => named ['i', 'd'] 'I' ⟨none, some .id, .serve⟩
  | .serve =>
      sharedOptions .serve ++
      named ['r', 'a', 'f', 't', '_', 'p', 'o', 'r', 't'] 'p' ⟨none, some .raftPort, .serve⟩ ++
      named ['h', 't', 't', 'p', '_', 'p', 'o', 'r', 't'] 't' ⟨none, some .httpPort, .serve⟩

namespace ServerOptions

def raise (opt : ServerOptions) : Flag → ServerOptions
  | .drop => { opt with drop := true }
  | .join => { opt with join := true }
  | .leave => { opt with leave := true }
  | .start => { opt with start := true }
  | .daemonize => { opt with daemonize := true }
  | .debug => { opt with debug := true }
  | .help => { opt with help := true }
  | .version => { opt with version := true }

/-- The port for HTTP is read and forgotten. -/
def store (opt : ServerOptions) (text : Text) : Field → ServerOptions
  | .dbSize => { opt with dbSize := some text }
  | .host => { opt with host := some text }
  | .httpPort => opt
  | .id => { opt with id := some text }
  | .path => { opt with path := some text }
  | .pidFile => { opt with pidFile := some text }
  | .raftPort => { opt with raftPort := some text }
  | .peer => { opt with peer := some text }

end ServerOptions

/-- How far the words have been understood: the next one is a word of a stage, or a value.
Rejected words stay rejected, and a value may be too long for the buffer. -/
inductive Progress where
  | word (stage : Stage) (opt : ServerOptions)
  | value (field : Field) (next : Stage) (opt : ServerOptions)
  | rejected
  | overrun
deriving Repr, DecidableEq

/-- One more word. -/
def Progress.read : Progress → Text → Progress
  | .word stage opt, text =>
      match stage.grammar.lookup text with
      | none => .rejected
      | some item =>
          let opt := item.flag.elim opt opt.raise
          item.value.elim (.word item.next opt) fun field => .value field item.next opt
  | .value field next opt, text =>
      if text = [] then .rejected
      else if field = .httpPort ∨ text.length < BUFLEN then .word next (opt.store text field)
      else .overrun
  | .rejected, _ => .rejected
  | .overrun, _ => .overrun

/-- What comes of a command line. -/
inductive Outcome where
  | accepted (opt : ServerOptions)
  | rejected
  | overrun
deriving Repr, DecidableEq

/-- A command line may end where a word is expected, but for the id of a server. -/
def Progress.outcome : Progress → Outcome
  | .word .ident _ => .rejected
  | .word _ opt => .accepted opt
  | .value _ _ _ => .rejected
  | .rejected => .rejected
  | .overrun => .overrun

/-- What the grammar makes of the arguments. -/
def understood (args : List CString) : Outcome :=
  (args.foldl (fun progress arg => Progress.read progress arg.bytes)
    (Progress.word .command paramsInit.opt)).outcome

/-- What `parse_options` makes of them. -/
def parsed (args : List CString) : Outcome :=
  match parseOptions args with
  | none => .overrun
  | some (e, opt) => if e = 0 then .accepted opt else .rejected

/-! ### The tables hold the grammar -/

def Stage.code : Stage → Nat
  | .command => 163
  | .rejoin => 164
  | .alone => 165
  | .wipe => 166
  | .ident => 81
  | .serve => 167

/-- The action that raises a flag. -/
def Flag.code : Flag → Nat
  | .drop => 3
  | .join => 4
  | .leave => 5
  | .start => 6
  | .daemonize => 7
  | .debug => 8
  | .help => 9
  | .version => 10

/-- The action that copies the buffer to a field. -/
def Field.code : Field → Nat
  | .dbSize => 11
  | .host => 12
  | .httpPort => 13
  | .id => 14
  | .path => 15
  | .pidFile => 16
  | .raftPort => 17
  | .peer => 18

/-- The state in front of a value.  In the state behind it some of the value has been read. -/
def valueState : Field → Stage → Nat
  | .host, .rejoin => 18
  | .path, .rejoin => 24
  | .pidFile, .rejoin => 33
  | .dbSize, .rejoin => 37
  | .path, .wipe => 73
  | .peer, .ident => 79
  | .id, .serve => 86
  | .dbSize, .serve => 105
  | .host, .serve => 115
  | .httpPort, .serve => 125
  | .path, .serve => 131
  | .pidFile, .serve => 140
  | .raftPort, .serve => 151
  | _, _ => 0

/-- The transition at the end of a word. -/
def Item.move (item : Item) : Nat × List Nat :=
  (item.value.elim item.next.code fun field => valueState field item.next,
    item.flag.toList.map Flag.code)

theorem charCode_injective : charCode.Injective := by
  intro c d h
  exact UInt8.toBitVec_inj.mp (BitVec.eq_of_toInt_eq h)

theorem charCode_eq_zero {c : UInt8} : charCode c = 0 ↔ c = 0 := by
  constructor
  · intro h
    exact charCode_injective h
  · rintro rfl
    rfl

/-- The words that the tables take in a stage are those of the grammar. -/
theorem stage_words (stage : Stage) : ∃ ws, paramsScanner.words 16 stage.code = some ws ∧
    ∀ text : Text, ws.lookup (text.map charCode) =
      (stage.grammar.lookup text).map Item.move := by
  have hchecked : ((paramsScanner.words 16 stage.code).any fun ws => ws.isPerm
      (stage.grammar.map fun entry => (entry.1.map charCode, entry.2.move))) = true ∧
      ((stage.grammar.map fun entry => (entry.1.map charCode, entry.2.move)).map
        Prod.fst).Nodup := by
    cases stage <;> decide +kernel
  obtain ⟨hperm, hnodup⟩ := hchecked
  rw [Option.any_eq_true] at hperm
  obtain ⟨ws, hws, hperm⟩ := hperm
  refine ⟨ws, hws, ?_⟩
  intro text
  rw [Tables.lookup_perm (List.isPerm_iff.mp hperm) hnodup]
  exact Tables.lookup_map (List.map_injective_iff.mpr charCode_injective) _ _ _

theorem flag_act (fsm : Params) (c : UInt8) (flag : Flag) : fsm.act c flag.code =
    some { fsm with opt := fsm.opt.raise flag } := by
  cases flag <;> rfl

theorem field_act (fsm : Params) (c : UInt8) (field : Field) : fsm.act c field.code =
    if field = .httpPort then some fsm else fsm.copy fun opt text => opt.store text field := by
  cases field <;> rfl

section Read

variable {fsm fsm' : Params} {arg : CString} {text : Text} {field : Field} {next : Stage}

theorem CString.ne_zero (arg : CString) : ∀ c ∈ arg.bytes, paramsScanner.code c ≠ 0 := by
  intro c hc hzero
  exact arg.zero_notMem (charCode_eq_zero.mp hzero ▸ hc)

/-- A word of a stage. -/
theorem paramsExecute_stage (stage : Stage) (fsm : Params) (arg : CString) :
    paramsExecute (stage.code, some fsm) arg =
      (stage.grammar.lookup arg.bytes).elim (0, some fsm) fun item => (item.move.1,
        some { fsm with opt := item.flag.elim fsm.opt fsm.opt.raise }) := by
  obtain ⟨ws, hws, hlookup⟩ := stage_words stage
  have hcode : stage.code ≠ 0 := by cases stage <;> decide
  have hword : ws.lookup (arg.bytes.map paramsScanner.code) =
      (stage.grammar.lookup arg.bytes).map Item.move := hlookup arg.bytes
  rw [paramsExecute, Scanner.exec, if_neg hcode,
    Scanner.scan_word hws arg.ne_zero (charCode_eq_zero.mpr rfl), hword]
  cases stage.grammar.lookup arg.bytes with
  | none => rfl
  | some item =>
      obtain ⟨flag, value, next⟩ := item
      cases flag with
      | none => rfl
      | some flag => exact congrArg (Prod.mk _) (flag_act fsm 0 flag)

/-! ### Values -/

/-- The buffer has its full size, and its last byte has not been written. -/
def Params.Sound (fsm : Params) : Prop :=
  fsm.buffer.length = BUFLEN + 1 ∧ fsm.buffer.getLast? = some none

/-- The buffer holds what fits of a text. -/
structure Params.Holds (fsm : Params) (text : Text) : Prop where
  buflen : fsm.buflen = (text.take BUFLEN).length
  buffer : ∃ rest, fsm.buffer = (text.take BUFLEN).map some ++ rest ∧
    (text.take BUFLEN).length + rest.length = BUFLEN + 1 ∧ rest.getLast? = some none

theorem Params.Holds.sound (h : fsm.Holds text) : fsm.Sound := by
  obtain ⟨rest, hbuffer, hlength, hlast⟩ := h.buffer
  refine ⟨by rw [hbuffer, List.length_append, List.length_map, hlength], ?_⟩
  rw [hbuffer, List.getLast?_append, hlast]
  rfl

theorem Params.Sound.clear (h : fsm.Sound) (opt : ServerOptions) :
    Params.Holds { fsm with buflen := 0, opt := opt } [] :=
  ⟨rfl, fsm.buffer, rfl, by simpa using h.1, h.2⟩

/-- One more character. -/
theorem Params.Holds.put (h : fsm.Holds text) (c : UInt8) : (fsm.put c).Holds (text ++ [c]) := by
  obtain ⟨rest, hbuffer, hlength, hlast⟩ := h.buffer
  unfold Params.put
  by_cases hroom : text.length < BUFLEN
  · have htake : text.take BUFLEN = text := List.take_of_length_le (by omega)
    have htake' : (text ++ [c]).take BUFLEN = text ++ [c] :=
      List.take_of_length_le (by simp; omega)
    rw [htake] at hbuffer hlength
    have hbuflen : fsm.buflen = text.length := by rw [h.buflen, htake]
    rw [if_pos (by omega)]
    cases rest with
    | nil => cases hlast
    | cons old more =>
        have hmore : more ≠ [] := by
          rintro rfl
          simp at hlength
          omega
        refine ⟨by simp [htake', hbuflen], more, ?_, ?_, ?_⟩
        · simp [htake', hbuflen, hbuffer]
        · simp [htake'] at hlength ⊢
          omega
        · rw [List.getLast?_cons_of_ne_nil hmore] at hlast
          exact hlast
  · have htake : (text ++ [c]).take BUFLEN = text.take BUFLEN :=
      List.take_append_of_le_length (by omega)
    have hbuflen : fsm.buflen = BUFLEN := by
      rw [h.buflen, List.length_take]
      omega
    rw [if_neg (by omega)]
    exact ⟨by rw [htake]; exact h.buflen, rest, by rw [htake]; exact hbuffer,
      by rw [htake]; exact hlength, hlast⟩

theorem bufferText_of_text (htext : ∀ c ∈ text, c ≠ 0) (rest : List (Option UInt8)) :
    bufferText (text.map some ++ some 0 :: rest) = some text := by
  induction text with
  | nil => rfl
  | cons c more ih =>
      obtain ⟨hc, hmore⟩ := List.forall_mem_cons.mp htext
      rw [List.map_cons, List.cons_append, bufferText, if_neg hc, ih hmore]
      rfl

theorem bufferText_unwritten (htext : ∀ c ∈ text, c ≠ 0) (rest : List (Option UInt8)) :
    bufferText (text.map some ++ none :: rest) = none := by
  induction text with
  | nil => rfl
  | cons c more ih =>
      obtain ⟨hc, hmore⟩ := List.forall_mem_cons.mp htext
      rw [List.map_cons, List.cons_append, bufferText, if_neg hc, ih hmore]
      rfl

/-- What `strdup` makes of the buffer behind a text. -/
theorem Params.Holds.bufferText_eq (h : (fsm.put 0).Holds (text ++ [0]))
    (htext : ∀ c ∈ text, c ≠ 0) :
    bufferText (fsm.put 0).buffer = if text.length < BUFLEN then some text else none := by
  obtain ⟨rest, hbuffer, hlength, hlast⟩ := h.buffer
  rw [hbuffer]
  by_cases hroom : text.length < BUFLEN
  · have htake : (text ++ [0]).take BUFLEN = text ++ [0] :=
      List.take_of_length_le (by simp; omega)
    rw [htake, if_pos hroom, List.map_append, List.append_assoc]
    exact bufferText_of_text htext rest
  · have htake : (text ++ [0]).take BUFLEN = text.take BUFLEN :=
      List.take_append_of_le_length (by omega)
    rw [htake] at hlength ⊢
    rw [if_neg hroom]
    have hone : rest.length = 1 := by
      rw [List.length_take] at hlength
      omega
    obtain ⟨last, rfl⟩ := List.length_eq_one_iff.mp hone
    cases hlast
    exact bufferText_unwritten (fun c hc => htext c (List.mem_of_mem_take hc)) []

/-- The states around a value: a value is not empty, and it is read up to a zero. -/
theorem value_next (hstate : valueState field next ≠ 0) (c : UInt8) :
    paramsScanner.next (valueState field next) (paramsScanner.code c) =
        (if c = 0 then (0, []) else (valueState field next + 1, [2, 0])) ∧
      paramsScanner.next (valueState field next + 1) (paramsScanner.code c) =
        if c = 0 then (next.code, [1, field.code]) else (valueState field next + 1, [0]) := by
  have hfirst : paramsScanner.Plain (valueState field next) ∧
      paramsScanner.edges (valueState field next) = [(0, 0, [])] ∧
      paramsScanner.otherwise (valueState field next) = (valueState field next + 1, [2, 0]) := by
    revert hstate
    cases field <;> cases next <;> decide +kernel
  have hmore : paramsScanner.Plain (valueState field next + 1) ∧
      paramsScanner.edges (valueState field next + 1) = [(0, next.code, [1, field.code])] ∧
      paramsScanner.otherwise (valueState field next + 1) =
        (valueState field next + 1, [0]) := by
    revert hstate
    cases field <;> cases next <;> decide +kernel
  rw [hfirst.1.next_eq, hfirst.2.1, hfirst.2.2, hmore.1.next_eq, hmore.2.1, hmore.2.2]
  by_cases hc : c = 0
  · subst hc
    exact ⟨rfl, rfl⟩
  · have hne : (paramsScanner.code c == 0) = false :=
      beq_false_of_ne fun hzero => hc (charCode_eq_zero.mp hzero)
    simp [List.lookup_cons, hne, hc]

theorem Params.put_opt (fsm : Params) (c : UInt8) : (fsm.put c).opt = fsm.opt := by
  unfold Params.put
  split <;> rfl

/-- The characters of a value. -/
theorem scan_value (hstate : valueState field next ≠ 0) (h : fsm.Holds text) {more : Text}
    (hmore : ∀ c ∈ more, c ≠ 0) (p : Nat) :
    ∃ fsm', paramsScanner.scan (valueState field next + 1) (some fsm) p more =
        (valueState field next + 1, some fsm') ∧ fsm'.Holds (text ++ more) ∧
      fsm'.opt = fsm.opt := by
  induction more generalizing fsm text p with
  | nil => exact ⟨fsm, rfl, by rwa [List.append_nil], rfl⟩
  | cons c more ih =>
      obtain ⟨hc, hrest⟩ := List.forall_mem_cons.mp hmore
      have hnext := (value_next hstate c).2
      rw [if_neg hc] at hnext
      obtain ⟨fsm', hscan, hholds, hopt⟩ := ih (h.put c) hrest (p + 1)
      refine ⟨fsm', ?_, by simpa using hholds, hopt.trans (fsm.put_opt c)⟩
      rw [Scanner.scan_cons hnext, if_neg (Nat.succ_ne_zero _)]
      exact hscan

/-- The zero behind a value. -/
theorem scan_value_end (hstate : valueState field next ≠ 0) (fsm : Params) (p : Nat) :
    paramsScanner.scan (valueState field next + 1) (some fsm) p [0] =
      (next.code, (fsm.put 0).act 0 field.code) := by
  have hnext := (value_next hstate 0).2
  rw [if_pos rfl] at hnext
  have hcode : next.code ≠ 0 := by cases next <;> decide
  rw [Scanner.scan_cons hnext, if_neg hcode]
  rfl

/-- The rest of a value and its end. -/
theorem scan_value_rest (hstate : valueState field next ≠ 0) (h : fsm.Holds text) {more : Text}
    (hmore : ∀ c ∈ more, c ≠ 0) (p : Nat) :
    ∃ fsm', paramsScanner.scan (valueState field next + 1) (some fsm) p (more ++ [0]) =
        (next.code, fsm'.act 0 field.code) ∧ fsm'.Holds (text ++ more ++ [0]) ∧
      fsm'.opt = fsm.opt ∧ ∃ before : Params, fsm' = before.put 0 := by
  obtain ⟨before, hscan, hholds, hopt⟩ := scan_value hstate h hmore p
  refine ⟨before.put 0, ?_, hholds.put 0, (before.put_opt 0).trans hopt, before, rfl⟩
  rw [Scanner.scan_append hscan (Nat.succ_ne_zero _), scan_value_end hstate]

/-! ### Reading words -/

/-- The scanner is as far as the words have been understood. -/
def Progress.Shows : Progress → Nat × Option Params → Prop
  | .word stage opt, s => ∃ fsm, s = (stage.code, some fsm) ∧ fsm.opt = opt ∧ fsm.Sound
  | .value field next opt, s =>
      valueState field next ≠ 0 ∧
        ∃ fsm, s = (valueState field next, some fsm) ∧ fsm.opt = opt ∧ fsm.Sound
  | .rejected, s => ∃ fsm, s = (0, some fsm)
  | .overrun, s => s.2 = none

/-- Every value of the grammar has its states. -/
theorem valueState_of_lookup {stage : Stage} {item : Item}
    (h : stage.grammar.lookup text = some item) (hvalue : item.value = some field) :
    valueState field item.next ≠ 0 := by
  have hall : ∀ entry ∈ stage.grammar, ∀ field ∈ entry.2.value,
      valueState field entry.2.next ≠ 0 := by
    cases stage <;> decide +kernel
  obtain ⟨front, back, heq, _⟩ := List.lookup_eq_some_iff.mp h
  exact hall (text, item) (by simp [heq]) field hvalue

/-- The value is copied to its field. -/
theorem copy_value {fsm' : Params} (hholds : fsm'.Holds (text ++ [0]))
    (hput : ∃ before : Params, fsm' = before.put 0) (htext : ∀ c ∈ text, c ≠ 0) :
    (if field = .httpPort ∨ text.length < BUFLEN
      then Progress.word next (fsm'.opt.store text field) else .overrun).Shows
      (next.code, fsm'.act 0 field.code) := by
  obtain ⟨before, rfl⟩ := hput
  have hcopied := hholds.bufferText_eq htext
  rw [field_act]
  by_cases hport : field = .httpPort
  · subst hport
    rw [if_pos (Or.inl rfl), if_pos rfl]
    exact ⟨_, rfl, rfl, hholds.sound⟩
  rw [if_neg hport, Params.copy, hcopied]
  by_cases hroom : text.length < BUFLEN
  · rw [if_pos (Or.inr hroom), if_pos hroom]
    exact ⟨_, rfl, rfl, hholds.sound⟩
  · rw [if_neg (by simp [hport, hroom]), if_neg hroom]
    rfl

/-- There is nothing left to do when `strdup` has failed. -/
theorem scan_none (cs p : Nat) (text : Text) : (paramsScanner.scan cs none p text).2 = none := by
  have hacts : ∀ (acts : List Nat) (p : Nat) (c : UInt8),
      acts.foldl (paramsScanner.act p c) none = none := by
    intro acts p c
    induction acts with
    | nil => rfl
    | cons act rest ih => exact ih
  induction text generalizing cs p with
  | nil => rfl
  | cons c rest ih =>
      simp only [Scanner.scan, hacts]
      split
      · rfl
      · exact ih _ _

/-- The scanner understands a word as the grammar does. -/
theorem Progress.Shows.read {progress : Progress} {s : Nat × Option Params}
    (h : progress.Shows s) (arg : CString) :
    (progress.read arg.bytes).Shows (paramsExecute s arg) := by
  cases progress with
  | word stage opt =>
      obtain ⟨fsm, rfl, rfl, hsound⟩ := h
      rw [paramsExecute_stage, Progress.read]
      cases hitem : stage.grammar.lookup arg.bytes with
      | none => exact ⟨fsm, rfl⟩
      | some item =>
          obtain ⟨flag, value, next⟩ := item
          cases value with
          | none =>
              change (Progress.word next _).Shows _
              exact ⟨_, rfl, rfl, hsound⟩
          | some field =>
              change (Progress.value field next _).Shows _
              exact ⟨valueState_of_lookup hitem rfl, _, rfl, rfl, hsound⟩
  | value field next opt =>
      obtain ⟨hstate, fsm, rfl, rfl, hsound⟩ := h
      rw [paramsExecute, Scanner.exec, if_neg hstate, Progress.read]
      cases hbytes : arg.bytes with
      | nil =>
          have hnext := (value_next hstate 0).1
          rw [if_pos rfl] at hnext
          rw [if_pos rfl, List.nil_append, Scanner.scan_cons hnext, if_pos rfl]
          exact ⟨fsm, rfl⟩
      | cons c rest =>
          have htext : ∀ d ∈ c :: rest, d ≠ 0 := by
            intro d hd hzero
            exact arg.zero_notMem (hbytes ▸ hzero ▸ hd)
          obtain ⟨hc, hrest⟩ := List.forall_mem_cons.mp htext
          have hnext := (value_next hstate c).1
          rw [if_neg hc] at hnext
          have hfirst := (hsound.clear fsm.opt).put c
          obtain ⟨fsm', hscan, hholds, hopt, hput⟩ := scan_value_rest hstate hfirst hrest 1
          rw [if_neg (List.cons_ne_nil c rest), List.cons_append, Scanner.scan_cons hnext,
            if_neg (Nat.succ_ne_zero _)]
          have hcopied : (if field = .httpPort ∨ (c :: rest).length < BUFLEN
              then Progress.word next (fsm'.opt.store (c :: rest) field) else .overrun).Shows
              (next.code, fsm'.act 0 field.code) := copy_value hholds hput htext
          rw [hopt, Params.put_opt] at hcopied
          exact hscan ▸ hcopied
  | rejected =>
      obtain ⟨fsm, rfl⟩ := h
      exact ⟨fsm, rfl⟩
  | overrun =>
      obtain ⟨cs, fsm⟩ := s
      cases h
      change (paramsScanner.exec cs none (arg.bytes ++ [0])).2 = none
      unfold Scanner.exec
      split
      · rfl
      · exact scan_none _ _ _

theorem Progress.Shows.readAll {progress : Progress} {s : Nat × Option Params}
    (h : progress.Shows s) (args : List CString) :
    (args.foldl (fun progress arg => Progress.read progress arg.bytes) progress).Shows
      (args.foldl paramsExecute s) := by
  induction args generalizing progress s with
  | nil => exact h
  | cons arg rest ih => exact ih (h.read arg)

theorem paramsInit_shows :
    (Progress.word .command paramsInit.opt).Shows (paramsStart, some paramsInit) := by
  refine ⟨paramsInit, rfl, rfl, ?_, ?_⟩
  · exact List.length_replicate
  · simp [paramsInit, List.getLast?_replicate]

/-- `parse_options` understands its arguments as the grammar does, and fails only for a value
that does not fit into the buffer. -/
theorem parse_options_grammar (args : List CString) : parsed args = understood args := by
  have hshows := paramsInit_shows.readAll args
  unfold understood parsed parseOptions
  generalize args.foldl paramsExecute (paramsStart, some paramsInit) = s at hshows ⊢
  generalize args.foldl (fun progress arg => Progress.read progress arg.bytes)
    (Progress.word .command paramsInit.opt) = progress at hshows ⊢
  cases progress with
  | word stage opt =>
      obtain ⟨fsm, rfl, rfl, _⟩ := hshows
      cases stage <;> rfl
  | value field next opt =>
      obtain ⟨_, fsm, rfl, rfl, _⟩ := hshows
      cases field <;> cases next <;> rfl
  | rejected =>
      obtain ⟨fsm, rfl⟩ := hshows
      rfl
  | overrun =>
      obtain ⟨cs, fsm⟩ := s
      cases hshows
      rfl

end Read

end IdAllocator
