/-
`getopt_long` as it is documented: options may stand in front of, between and behind
other arguments, the short ones in clusters, the long ones by their name or by a
beginning that is one of no other name.
-/
import Mathlib.Data.List.TakeWhile

namespace Getopt

/-- A string, without its end. -/
abbrev Text := List UInt8

/-- The characters of a word. -/
def ascii (word : List Char) : Text :=
  word.map Char.toUInt8

/-- A letter among the short options; `hasArg` is the colon behind it. -/
structure ShortOption where
  val : Char
  hasArg : Bool
deriving Repr, DecidableEq

/-- A row of the table of long options, with `required_argument`. -/
structure LongOption where
  name : Text
  val : Char
deriving Repr, DecidableEq

/-- How far the scan is: the rest of a cluster of short options, and the arguments behind it. -/
structure Scan where
  nextchar : Text
  args : List Text
deriving Repr, DecidableEq

/-- What a call returns, and `optarg`. -/
structure Found where
  c : Char
  optarg : Option Text
deriving Repr, DecidableEq

/-- An option that was not recognised, or has no argument. -/
def Found.unknown : Found where
  c := '?'
  optarg := none

/-- The argument of an option is the next one, whatever it looks like. -/
def takeArg (val : Char) : List Text → Found × Scan
  | [] => (.unknown, { nextchar := [], args := [] })
  | value :: rest => ({ c := val, optarg := some value }, { nextchar := [], args := rest })

section Options

variable (short : List ShortOption) (long : List LongOption)

/-- One character of a cluster. -/
def shortOption (c : UInt8) (rest : Text) (args : List Text) : Found × Scan :=
  match short.find? fun o => o.val.toUInt8 = c with
  | none => (.unknown, { nextchar := rest, args := args })
  | some o =>
      if o.hasArg then
        if rest.isEmpty then takeArg o.val args
        else ({ c := o.val, optarg := some rest }, { nextchar := [], args := args })
      else ({ c := o.val, optarg := none }, { nextchar := rest, args := args })

/-- The row for a name: the one that has it, or the only one that begins with it. -/
def findLong (name : Text) : Option LongOption :=
  match long.find? fun o => o.name = name with
  | some o => some o
  | none =>
      match long.filter fun o => name.isPrefixOf o.name with
      | [o] => some o
      | _ => none

/-- What stands behind two hyphens: a name, and an argument if there is an equals sign. -/
def longOption (body : Text) (args : List Text) : Found × Scan :=
  match findLong long (body.takeWhile fun c => c ≠ 61) with
  | none => (.unknown, { nextchar := [], args := args })
  | some o =>
      match body.dropWhile fun c => c ≠ 61 with
      | _ :: value => ({ c := o.val, optarg := some value }, { nextchar := [], args := args })
      | [] => takeArg o.val args

/-- Go to the next option.  What is none is moved to the end. -/
def scanArgs : List Text → Option (Found × Scan)
  | [] => none
  | (45 :: 45 :: []) :: _ => none
  | (45 :: 45 :: c :: body) :: rest => some (longOption long (c :: body) rest)
  | (45 :: c :: cluster) :: rest => some (shortOption short c cluster rest)
  | _ :: rest => scanArgs rest

/-- A call of `getopt_long`, nothing for the return value -1. -/
def getoptLong (s : Scan) : Option (Found × Scan) :=
  match s.nextchar with
  | c :: rest => some (shortOption short c rest s.args)
  | [] => scanArgs short long s.args

end Options

/-! ### Calls come to an end -/

/-- The characters that are left, and the ends of the arguments. -/
def Scan.size (s : Scan) : Nat :=
  s.nextchar.length + (s.args.flatten.length + s.args.length)

variable {short : List ShortOption} {long : List LongOption}

theorem takeArg_size (val : Char) (args : List Text) :
    (takeArg val args).2.size ≤ args.flatten.length + args.length := by
  cases args with
  | nil => exact Nat.le_refl _
  | cons value rest =>
      simp only [takeArg, Scan.size, List.length_nil, List.flatten_cons, List.length_append,
        List.length_cons]
      omega

theorem shortOption_size (c : UInt8) (rest : Text) (args : List Text) :
    (shortOption short c rest args).2.size ≤
      rest.length + (args.flatten.length + args.length) := by
  unfold shortOption
  split
  · exact Nat.le_refl _
  · rename_i o _
    split
    · split
      · have hsize := takeArg_size o.val args
        omega
      · simp only [Scan.size, List.length_nil]
        omega
    · exact Nat.le_refl _

theorem longOption_size (body : Text) (args : List Text) :
    (longOption long body args).2.size ≤ args.flatten.length + args.length := by
  unfold longOption
  split
  · simp [Scan.size]
  · split
    · simp [Scan.size]
    · exact takeArg_size _ args

theorem scanArgs_size {args : List Text} {found : Found} {s : Scan}
    (h : scanArgs short long args = some (found, s)) :
    s.size < args.flatten.length + args.length := by
  fun_induction scanArgs short long args with
  | case1 => cases h
  | case2 => cases h
  | case3 c body rest =>
      have hsize := @longOption_size long (c :: body) rest
      rw [Option.some.inj h] at hsize
      change s.size ≤ _ at hsize
      simp only [List.flatten_cons, List.length_append, List.length_cons]
      omega
  | case4 c cluster rest _ =>
      have hsize := @shortOption_size short c cluster rest
      rw [Option.some.inj h] at hsize
      change s.size ≤ _ at hsize
      simp only [List.flatten_cons, List.length_append, List.length_cons]
      omega
  | case5 arg rest _ _ _ ih =>
      have hsize := ih h
      simp only [List.flatten_cons, List.length_append, List.length_cons]
      omega

theorem getoptLong_size {s s' : Scan} {found : Found}
    (h : getoptLong short long s = some (found, s')) : s'.size < s.size := by
  unfold getoptLong at h
  split at h
  · rename_i c rest hnext
    have hsize := @shortOption_size short c rest s.args
    rw [Option.some.inj h] at hsize
    simp only [Scan.size, hnext, List.length_cons] at hsize ⊢
    omega
  · exact Nat.lt_of_lt_of_le (scanArgs_size h) (Nat.le_add_left _ _)

/-! ### Long options with their arguments -/

/-- The two ways to write a long option: with an equals sign, or in two arguments. -/
def words (name value : Text) (joined : Bool) : List Text :=
  if joined then [45 :: 45 :: (name ++ 61 :: value)] else [45 :: 45 :: name, value]

theorem findLong_self {o : LongOption} (h : long.find? (fun other => other.name = o.name) = some o) :
    findLong long o.name = some o := by
  rw [findLong, h]

/-- Both are read as the option and its argument. -/
theorem getoptLong_words {o : LongOption} (hfind : findLong long o.name = some o)
    (hname : ∀ c ∈ o.name, c ≠ 61) (hne : o.name ≠ []) (value : Text) (joined : Bool)
    (rest : List Text) :
    getoptLong short long { nextchar := [], args := words o.name value joined ++ rest } =
      some ({ c := o.val, optarg := some value }, { nextchar := [], args := rest }) := by
  obtain ⟨c, name, hcons⟩ := List.exists_cons_of_ne_nil hne
  cases joined with
  | true =>
      have hbody : longOption long (o.name ++ 61 :: value) rest =
          ({ c := o.val, optarg := some value }, { nextchar := [], args := rest }) := by
        have htake : (o.name ++ 61 :: value).takeWhile (fun c => c ≠ 61) = o.name := by
          rw [List.takeWhile_append_of_pos (by simpa using hname),
            List.takeWhile_cons_of_neg (by simp), List.append_nil]
        have hdrop : (o.name ++ 61 :: value).dropWhile (fun c => c ≠ 61) = 61 :: value := by
          rw [List.dropWhile_append_of_pos (by simpa using hname),
            List.dropWhile_cons_of_neg (by simp)]
        rw [longOption, htake, hfind]
        simp only [hdrop]
      rw [hcons] at hbody
      rw [words, if_pos rfl, hcons, getoptLong]
      exact congrArg some hbody
  | false =>
      have hbody : longOption long o.name (value :: rest) =
          ({ c := o.val, optarg := some value }, { nextchar := [], args := rest }) := by
        have htake : o.name.takeWhile (fun c => c ≠ 61) = o.name := by
          rw [List.takeWhile_eq_self_iff]
          simpa using hname
        have hdrop : o.name.dropWhile (fun c => c ≠ 61) = [] := by
          rw [List.dropWhile_eq_nil_iff]
          simpa using hname
        rw [longOption, htake, hfind]
        simp only [hdrop]
        rfl
      rw [hcons] at hbody
      rw [words, hcons, getoptLong]
      exact congrArg some hbody

end Getopt
