/-
The options of the command line, `options_init` of `options.c`.

The address of a service is cut at its colon with a pointer that moves twice, and the
address of the peer is taken from a copy that is never there any more when it is read.
-/
import IdAllocator.Lib.Fallible
import IdAllocator.Lib.Getopt

namespace IdAllocator

open Fallible Getopt

/-! ### Numbers as texts -/

def LONG_MIN : Int := -9223372036854775808

def LONG_MAX : Int := 9223372036854775807

/-- `isspace`. -/
def isSpace (c : UInt8) : Bool :=
  c = 32 || (9 ≤ c && c ≤ 13)

/-- `isdigit`. -/
def isDigit (c : UInt8) : Bool :=
  48 ≤ c && c ≤ 57

/-- The number that a text begins with. -/
def digitsValue (text : Text) : Nat :=
  (text.takeWhile isDigit).foldl (fun n c => 10 * n + (c.toNat - 48)) 0

/-- `strtol` to the base 10, on the 64 bits of a `long`. -/
def strtol (text : Text) : Int :=
  match text.dropWhile isSpace with
  | 45 :: rest => max (-(digitsValue rest : Int)) LONG_MIN
  | 43 :: rest => min (digitsValue rest : Int) LONG_MAX
  | rest => min (digitsValue rest : Int) LONG_MAX

/-- `atoi`, which converts to an `int` what `strtol` returns. -/
def atoi (text : Text) : BitVec 32 :=
  BitVec.ofInt 32 (strtol text)

/-- What `"%d"` prints. -/
def decimal (v : BitVec 32) : Text :=
  let digits := ascii (Nat.toDigits 10 v.toInt.natAbs)
  if v.toInt < 0 then 45 :: digits else digits

/-! ### The options -/

/-- `option_type_e`. -/
inductive OptionType where
  | start
  | join
  | leave
  | drop
deriving Repr, DecidableEq

/-- The values of the enumeration. -/
def OptionType.code : OptionType → Int
  | .start => 0
  | .join => 1
  | .leave => 2
  | .drop => 3

/-- `option_type_info_t`. -/
structure OptionTypeInfo where
  name : Option Text
  type : OptionType
deriving Repr, DecidableEq

/-- The fields of `options_t` that `options_init` writes; a string is nothing for NULL. -/
structure Options where
  typeInfo : OptionTypeInfo
  host : Option Text
  id : Option Text
  raftPort : Option Text
  servicePort : Option Text
  peer : Option Text
deriving Repr, DecidableEq

/-- What `memset` leaves. -/
def Options.zero : Options where
  typeInfo := { name := none, type := .start }
  host := none
  id := none
  raftPort := none
  servicePort := none
  peer := none

/-- How `options_init` fails to return. -/
inductive OptionsFault where
  /-- a NULL string is read -/
  | nullString
  /-- a read behind the end of a string -/
  | overrun
  /-- more options than there are characters -/
  | endless
deriving Repr, DecidableEq

def startOption : LongOption where
  name := ascii ['s', 't', 'a', 'r', 't']
  val := 's'

def idOption : LongOption where
  name := ascii ['i', 'd']
  val := 'i'

def joinOption : LongOption where
  name := ascii ['j', 'o', 'i', 'n']
  val := 'j'

def leaveOption : LongOption where
  name := ascii ['l', 'e', 'a', 'v', 'e']
  val := 'l'

def peerOption : LongOption where
  name := ascii ['p', 'e', 'e', 'r']
  val := 'p'

/-- `long_options`. -/
def longOptions : List LongOption :=
  [startOption, idOption, joinOption, leaveOption, peerOption]

/-- The letters `s:i:j:l`. -/
def shortOptions : List ShortOption :=
  [⟨'s', true⟩, ⟨'i', true⟩, ⟨'j', true⟩, ⟨'l', false⟩]

/-! ### `options_init` -/

/-- The variables of the loop that live on; `argPtr` is `arg_ptr`. -/
structure OptionsState where
  opts : Options
  argPtr : Option Text
deriving Repr, DecidableEq

/-- `strdup`. -/
def strdup (text : Option Text) : Except OptionsFault Text :=
  deref text .nullString

/-- The branch of a service; the flag is false for the return value -1.  Behind the colon
`tmp_ptr` has moved already when one is added to it. -/
def serviceBranch (s : OptionsState) (optarg : Option Text) :
    Except OptionsFault (OptionsState × Bool) := do
  let arg ← strdup optarg
  match arg.dropWhile fun c => c ≠ 58 with
  | [] => return ({ s with argPtr := some arg }, false)
  | [_] => .error .overrun
  | _ :: _ :: raftPort =>
      let iServicePort := atoi raftPort + 1
      let opts := { s.opts with
        host := some (arg.takeWhile fun c => c ≠ 58)
        raftPort := some raftPort
        servicePort := some (decimal iServicePort) }
      return ({ opts := opts, argPtr := none }, true)

/-- The `switch` behind the branches. -/
def optionsSwitch (s : OptionsState) (c : Char) : Except OptionsFault OptionsState :=
  let typed (name : Text) (type : OptionType) : OptionsState :=
    { s with opts := { s.opts with typeInfo := { name := some name, type := type } } }
  if c = 's' then return typed (ascii ['s', 't', 'a', 'r', 't']) .start
  else if c = 'l' then return typed (ascii ['l', 'e', 'a', 'v', 'e']) .leave
  else if c = 'j' then return typed (ascii ['j', 'o', 'i', 'n']) .join
  else if c = 'p' then do
    let peer ← strdup s.argPtr
    return { s with opts := { s.opts with peer := some peer } }
  else return s

/-- The branches: every option that is no service is taken for the id. -/
def optionsBranch (s : OptionsState) (found : Found) : Except OptionsFault (OptionsState × Bool) :=
  if found.c = 's' ∨ found.c = 'l' ∨ found.c = 'j' then serviceBranch s found.optarg
  else do
    let id ← strdup found.optarg
    return ({ s with opts := { s.opts with id := some id } }, true)

/-- The body of the loop; the flag is false for the return value -1. -/
def optionsRound (s : OptionsState) (found : Found) :
    Except OptionsFault (OptionsState × Bool) := do
  let (s, goesOn) ← optionsBranch s found
  if goesOn then
    return (← optionsSwitch s found.c, true)
  else
    return (s, false)

/-- At most `fuel` rounds of the loop. -/
def optionsLoop : Nat → OptionsState → Scan → Except OptionsFault (OptionsState × Bool)
  | 0, _, _ => .error .endless
  | fuel + 1, s, scan =>
      match getoptLong shortOptions longOptions scan with
      | none => return (s, true)
      | some (found, scan) => do
          let (s, goesOn) ← optionsRound s found
          if goesOn then optionsLoop fuel s scan else return (s, false)

/-- The tests behind the loop. -/
def optionsCheck (opts : Options) : Int :=
  if opts.host = none ∨ opts.typeInfo.type.code < OptionType.start.code ∨
      OptionType.leave.code < opts.typeInfo.type.code then -1
  else if opts.typeInfo.type.code < OptionType.join.code ∧ opts.peer = none then -1
  else 0

/-- `options_init`, with the options and the return value.  Every round takes a character
from the arguments. -/
def optionsInit (argv : List Text) : Except OptionsFault (Options × Int) := do
  let scan : Scan := { nextchar := [], args := argv.drop 1 }
  let (s, goesOn) ← optionsLoop (scan.size + 1) { opts := .zero, argPtr := none } scan
  return (s.opts, if goesOn then optionsCheck s.opts else -1)

/-! ### The loop ends -/

theorem strdup_ne_endless {text : Option Text} : strdup text ≠ .error .endless := by
  intro h
  cases (deref_eq_error.mp h).2

theorem serviceBranch_ne_endless {s : OptionsState} {optarg : Option Text} :
    serviceBranch s optarg ≠ .error .endless := by
  intro h
  rcases bind_eq_error.mp h with hcopy | ⟨arg, _, h⟩
  · exact strdup_ne_endless hcopy
  · split at h <;> cases h

theorem optionsSwitch_ne_endless {s : OptionsState} {c : Char} :
    optionsSwitch s c ≠ .error .endless := by
  intro h
  simp only [optionsSwitch] at h
  split_ifs at h
  · cases h
  · cases h
  · cases h
  · rcases bind_eq_error.mp h with hpeer | ⟨peer, _, h⟩
    · exact strdup_ne_endless hpeer
    · cases h
  · cases h

theorem optionsRound_ne_endless {s : OptionsState} {found : Found} :
    optionsRound s found ≠ .error .endless := by
  intro h
  rcases bind_eq_error.mp h with hbranch | ⟨⟨s', goesOn⟩, _, h⟩
  · unfold optionsBranch at hbranch
    split_ifs at hbranch
    · exact serviceBranch_ne_endless hbranch
    · rcases bind_eq_error.mp hbranch with hid | ⟨id, _, h⟩
      · exact strdup_ne_endless hid
      · cases h
  · cases goesOn with
    | false => cases h
    | true =>
        rcases bind_eq_error.mp h with hswitch | ⟨s'', _, h⟩
        · exact optionsSwitch_ne_endless hswitch
        · cases h

theorem optionsLoop_ne_endless {fuel : Nat} {s : OptionsState} {scan : Scan}
    (hfuel : scan.size < fuel) : optionsLoop fuel s scan ≠ .error .endless := by
  induction fuel generalizing s scan with
  | zero => omega
  | succ fuel ih =>
      intro h
      unfold optionsLoop at h
      split at h
      · cases h
      · rename_i found scan' hnext
        have hless := getoptLong_size hnext
        rcases bind_eq_error.mp h with hround | ⟨⟨s', goesOn⟩, _, h⟩
        · exact optionsRound_ne_endless hround
        · cases goesOn with
          | false => cases h
          | true => exact ih (by omega) h

/-- `options_init` returns, or it goes wrong in a string. -/
theorem optionsInit_ne_endless (argv : List Text) : optionsInit argv ≠ .error .endless := by
  intro h
  rcases bind_eq_error.mp h with hloop | ⟨_, _, h⟩
  · exact optionsLoop_ne_endless (Nat.lt_succ_self _) hloop
  · cases h

/-! ### Vectors of long options -/

/-- An option with its argument. -/
structure OptionArg where
  option : LongOption
  value : Text
deriving Repr, DecidableEq

/-- What `getopt_long` returns for it. -/
def OptionArg.found (arg : OptionArg) : Found where
  c := arg.option.val
  optarg := some arg.value

/-- It as it is written: `joined` is the equals sign. -/
structure WrittenArg extends OptionArg where
  joined : Bool
deriving Repr, DecidableEq

def WrittenArg.words (arg : WrittenArg) : List Text :=
  Getopt.words arg.option.name arg.value arg.joined

/-- The round for an option, of which the flag is dropped. -/
def optionsStep (s : OptionsState) (arg : OptionArg) : Except OptionsFault OptionsState :=
  Prod.fst <$> optionsRound s arg.found

theorem getoptLong_written {arg : WrittenArg} (hoption : arg.option ∈ longOptions)
    (rest : List Text) :
    getoptLong shortOptions longOptions { nextchar := [], args := arg.words ++ rest } =
      some (arg.found, { nextchar := [], args := rest }) := by
  have hrow : ∀ o ∈ longOptions,
      longOptions.find? (fun other => other.name = o.name) = some o ∧
        (∀ c ∈ o.name, c ≠ 61) ∧ o.name ≠ [] := by decide +kernel
  obtain ⟨hfind, hname, hne⟩ := hrow arg.option hoption
  exact getoptLong_words (findLong_self hfind) hname hne arg.value arg.joined rest

/-- Rounds that all go on are a loop over the options. -/
theorem optionsLoop_written {args : List WrittenArg}
    (hoption : ∀ arg ∈ args, arg.option ∈ longOptions)
    (hgoesOn : ∀ arg ∈ args, ∀ s s' goesOn,
      optionsRound s arg.found = .ok (s', goesOn) → goesOn = true)
    {fuel : Nat} (hfuel : args.length < fuel) (s : OptionsState) :
    optionsLoop fuel s { nextchar := [], args := args.flatMap WrittenArg.words } =
      (fun s => (s, true)) <$> (args.map WrittenArg.toOptionArg).foldlM optionsStep s := by
  induction args generalizing fuel s with
  | nil =>
      obtain ⟨fuel, rfl⟩ := Nat.exists_eq_add_one_of_ne_zero (Nat.ne_of_gt hfuel)
      rfl
  | cons arg rest ih =>
      obtain ⟨fuel, rfl⟩ :=
        Nat.exists_eq_add_one_of_ne_zero (Nat.ne_of_gt (Nat.zero_lt_of_lt hfuel))
      rw [List.flatMap_cons, optionsLoop, getoptLong_written (hoption arg List.mem_cons_self),
        List.map_cons, List.foldlM_cons, optionsStep]
      change (optionsRound s arg.found >>= _) = _
      cases hround : optionsRound s arg.found with
      | error e => rfl
      | ok pair =>
          obtain ⟨s', goesOn⟩ := pair
          obtain rfl := hgoesOn arg List.mem_cons_self s s' goesOn hround
          apply ih
          · exact fun later hlater => hoption later (List.mem_cons_of_mem arg hlater)
          · exact fun later hlater => hgoesOn later (List.mem_cons_of_mem arg hlater)
          · exact Nat.lt_of_succ_lt_succ hfuel

/-- Every option takes a character. -/
theorem length_le_size (args : List WrittenArg) :
    args.length ≤ Scan.size { nextchar := [], args := args.flatMap WrittenArg.words } := by
  induction args with
  | nil => exact Nat.le_refl _
  | cons arg rest ih =>
      have hwords : 1 ≤ arg.words.length := by
        unfold WrittenArg.words Getopt.words
        split
        · exact Nat.le_refl _
        · exact Nat.le_succ 1
      simp only [Scan.size, List.flatMap_cons, List.flatten_append, List.length_append,
        List.length_cons] at ih ⊢
      omega

/-! ### What a vector asks for -/

/-- The options that take the address of a service. -/
inductive OptionService where
  | start
  | join
  | leave
deriving Repr, DecidableEq

namespace OptionService

def option : OptionService → LongOption
  | .start => startOption
  | .join => joinOption
  | .leave => leaveOption

def type : OptionService → OptionType
  | .start => .start
  | .join => .join
  | .leave => .leave

theorem option_mem (service : OptionService) : service.option ∈ longOptions := by
  cases service <;> decide

end OptionService

/-- A service at an address, and if need be an id and the address of a peer. -/
structure CommandLine where
  service : OptionService
  host : Text
  port : Text
  id : Option Text
  peer : Option Text
  host_ne_nil : host ≠ []
  host_no_colon : ∀ c ∈ host, c ≠ 58
  port_ne_nil : port ≠ []
  port_digits : ∀ c ∈ port, isDigit c = true

namespace CommandLine

/-- `host:port`. -/
def address (line : CommandLine) : Text :=
  line.host ++ 58 :: line.port

/-- The options that say so. -/
def items (line : CommandLine) : List OptionArg :=
  { option := line.service.option, value := line.address } ::
    (line.id.toList.map (fun id => { option := idOption, value := id }) ++
      line.peer.toList.map (fun peer => { option := peerOption, value := peer }))

/-- A vector of them in any order. -/
structure ArgVector (line : CommandLine) where
  program : Text
  args : List WrittenArg
  perm : (args.map WrittenArg.toOptionArg).Perm line.items

def ArgVector.argv {line : CommandLine} (v : line.ArgVector) : List Text :=
  v.program :: v.args.flatMap WrittenArg.words

/-- The options hold what was asked for. -/
structure Held (line : CommandLine) (opts : Options) : Prop where
  host : opts.host = some line.host
  raftPort : opts.raftPort = some line.port
  id : opts.id = line.id
  peer : opts.peer = line.peer

/-- `options_init` has read no NULL string, and it has failed or the options hold the request. -/
def Served (line : CommandLine) (outcome : Except OptionsFault (Options × Int)) : Prop :=
  ∃ opts rc, outcome = .ok (opts, rc) ∧ (rc = -1 ∨ line.Held opts)

end CommandLine

/-! ### The rounds of a vector -/

/-- Behind the colon one more character is lost. -/
theorem service_round (line : CommandLine) (s : OptionsState) :
    optionsRound s { c := line.service.option.val, optarg := some line.address } =
      .ok ({
        opts := { s.opts with
          typeInfo := { name := some line.service.option.name, type := line.service.type }
          host := some line.host
          raftPort := some line.port.tail
          servicePort := some (decimal (atoi line.port.tail + 1)) }
        argPtr := none }, true) := by
  obtain ⟨digit, port, hport⟩ := List.exists_cons_of_ne_nil line.port_ne_nil
  have htake : line.address.takeWhile (fun c => c ≠ 58) = line.host := by
    rw [CommandLine.address, List.takeWhile_append_of_pos (by simpa using line.host_no_colon),
      List.takeWhile_cons_of_neg (by simp), List.append_nil]
  have hdrop : line.address.dropWhile (fun c => c ≠ 58) = 58 :: digit :: port := by
    rw [CommandLine.address, hport,
      List.dropWhile_append_of_pos (by simpa using line.host_no_colon),
      List.dropWhile_cons_of_neg (by simp)]
  have hbranch : serviceBranch s (some line.address) =
      .ok ({
        opts := { s.opts with
          host := some line.host
          raftPort := some port
          servicePort := some (decimal (atoi port + 1)) }
        argPtr := none }, true) := by
    rw [serviceBranch]
    change (match line.address.dropWhile fun c => c ≠ 58 with
      | [] => _
      | [_] => _
      | _ :: _ :: raftPort => _) = _
    rw [hdrop, htake]
    rfl
  rw [hport, List.tail_cons, optionsRound, optionsBranch]
  cases line.service with
  | start => rw [if_pos (.inl rfl), hbranch]; rfl
  | join => rw [if_pos (.inr (.inr rfl)), hbranch]; rfl
  | leave => rw [if_pos (.inr (.inl rfl)), hbranch]; rfl

theorem id_round (id : Text) (s : OptionsState) :
    optionsRound s { c := idOption.val, optarg := some id } =
      .ok ({ s with opts := { s.opts with id := some id } }, true) :=
  rfl

/-- The peer is read from the copy of an address. -/
theorem peer_round (peer : Text) (s : OptionsState) :
    optionsRound s { c := peerOption.val, optarg := some peer } =
      (fun copy =>
        ({ s with opts := { s.opts with id := some peer, peer := some copy } }, true)) <$>
          strdup s.argPtr := by
  obtain ⟨opts, argPtr⟩ := s
  cases argPtr <;> rfl

namespace CommandLine

variable {line : CommandLine}

/-- An item is the service, the id or the peer. -/
theorem items_cases {arg : OptionArg} (harg : arg ∈ line.items) :
    arg = { option := line.service.option, value := line.address } ∨
      (∃ id, line.id = some id ∧ arg = { option := idOption, value := id }) ∨
      ∃ peer, line.peer = some peer ∧ arg = { option := peerOption, value := peer } := by
  unfold items at harg
  simp only [List.mem_cons, List.mem_append, List.mem_map, Option.mem_toList] at harg
  rcases harg with hservice | ⟨id, hid, rfl⟩ | ⟨peer, hpeer, rfl⟩
  · exact .inl hservice
  · exact .inr (.inl ⟨id, hid, rfl⟩)
  · exact .inr (.inr ⟨peer, hpeer, rfl⟩)

theorem items_option {arg : OptionArg} (harg : arg ∈ line.items) : arg.option ∈ longOptions := by
  obtain rfl | ⟨id, _, rfl⟩ | ⟨peer, _, rfl⟩ := items_cases harg
  · exact line.service.option_mem
  · change idOption ∈ longOptions
    decide
  · change peerOption ∈ longOptions
    decide

/-- No round of a vector returns -1. -/
theorem items_goesOn {arg : OptionArg} (harg : arg ∈ line.items) {s s' : OptionsState}
    {goesOn : Bool} (hround : optionsRound s arg.found = .ok (s', goesOn)) : goesOn = true := by
  obtain rfl | ⟨id, _, rfl⟩ | ⟨peer, _, rfl⟩ := items_cases harg
  · rw [OptionArg.found, service_round] at hround
    cases hround
    rfl
  · rw [OptionArg.found, id_round] at hround
    cases hround
    rfl
  · rw [OptionArg.found, peer_round] at hround
    obtain ⟨copy, _, hpair⟩ := map_eq_ok.mp hround
    cases hpair
    rfl

/-- The rounds of a vector from the state in front of the loop. -/
theorem optionsInit_eq (v : line.ArgVector) :
    optionsInit v.argv =
      (fun s => (s.opts, optionsCheck s.opts)) <$>
        (v.args.map WrittenArg.toOptionArg).foldlM optionsStep
          { opts := .zero, argPtr := none } := by
  have hitem : ∀ arg ∈ v.args, arg.toOptionArg ∈ line.items := by
    intro arg harg
    exact v.perm.subset (List.mem_map_of_mem harg)
  have hloop := optionsLoop_written
    (fun arg harg => items_option (hitem arg harg))
    (fun arg harg s s' goesOn => items_goesOn (hitem arg harg))
    (Nat.lt_succ_of_le (length_le_size v.args)) { opts := .zero, argPtr := none }
  unfold optionsInit
  change (optionsLoop (Scan.size { nextchar := [], args := v.args.flatMap WrittenArg.words }).succ
    _ { nextchar := [], args := v.args.flatMap WrittenArg.words } >>= _) = _
  rw [hloop]
  cases (v.args.map WrittenArg.toOptionArg).foldlM optionsStep { opts := .zero, argPtr := none } <;>
    rfl

/-- Between two rounds there is no copy of an address, and without a peer among the
options none is held. -/
structure Between (line : CommandLine) (s : OptionsState) : Prop where
  argPtr : s.argPtr = none
  peer : s.opts.peer = none
  type : s.opts.typeInfo.type = .start ∨ s.opts.typeInfo.type = line.service.type

/-- The service has been read. -/
structure Addressed (line : CommandLine) (s : OptionsState) : Prop where
  host : s.opts.host = some line.host
  raftPort : s.opts.raftPort = some line.port.tail
  type : s.opts.typeInfo.type = line.service.type

theorem Between.round {s s' : OptionsState} (hs : line.Between s) {arg : OptionArg}
    (harg : arg ∈ line.items) (hround : optionsStep s arg = .ok s') : line.Between s' := by
  obtain ⟨goesOn, hround⟩ := fst_map_eq_ok hround
  obtain rfl | ⟨id, _, rfl⟩ | ⟨peer, _, rfl⟩ := items_cases harg
  · rw [OptionArg.found, service_round] at hround
    cases hround
    exact ⟨rfl, hs.peer, .inr rfl⟩
  · rw [OptionArg.found, id_round] at hround
    cases hround
    exact ⟨hs.argPtr, hs.peer, hs.type⟩
  · rw [OptionArg.found, peer_round, hs.argPtr] at hround
    cases hround

theorem Addressed.round {s s' : OptionsState} (hs : line.Addressed s) {arg : OptionArg}
    (harg : arg ∈ line.items) (hround : optionsStep s arg = .ok s') : line.Addressed s' := by
  obtain ⟨goesOn, hround⟩ := fst_map_eq_ok hround
  obtain rfl | ⟨id, _, rfl⟩ | ⟨peer, _, rfl⟩ := items_cases harg
  · rw [OptionArg.found, service_round] at hround
    cases hround
    exact ⟨rfl, rfl, rfl⟩
  · rw [OptionArg.found, id_round] at hround
    cases hround
    exact ⟨hs.host, hs.raftPort, hs.type⟩
  · rw [OptionArg.found, peer_round] at hround
    obtain ⟨copy, _, hpair⟩ := map_eq_ok.mp hround
    cases hpair
    exact ⟨hs.host, hs.raftPort, hs.type⟩

theorem between_start (line : CommandLine) : line.Between { opts := .zero, argPtr := none } where
  argPtr := rfl
  peer := rfl
  type := .inl rfl

theorem ArgVector.between_round (v : line.ArgVector) :
    ∀ arg ∈ v.args.map WrittenArg.toOptionArg, ∀ s s', line.Between s →
      optionsStep s arg = .ok s' → line.Between s' := by
  intro arg harg s s' hs hround
  exact hs.round (v.perm.subset harg) hround

/-- The address of a peer is read from a NULL string. -/
theorem optionsInit_peer (v : line.ArgVector) {peer : Text} (hpeer : line.peer = some peer) :
    ∃ fault, optionsInit v.argv = .error fault := by
  have hmem : ({ option := peerOption, value := peer } : OptionArg) ∈
      v.args.map WrittenArg.toOptionArg := by
    apply v.perm.symm.subset
    simp [items, hpeer]
  rw [optionsInit_eq]
  cases hrun : (v.args.map WrittenArg.toOptionArg).foldlM optionsStep
      { opts := .zero, argPtr := none } with
  | error fault => exact ⟨fault, rfl⟩
  | ok s =>
      apply False.elim
      apply foldlM_established line.Between (fun _ => False) v.between_round _ hmem _
        line.between_start hrun
      · exact fun arg harg s s' hs hround => hs
      · intro s s' hs hround
        obtain ⟨goesOn, hround⟩ := fst_map_eq_ok hround
        rw [OptionArg.found, peer_round, hs.argPtr] at hround
        cases hround

/-- Without a peer the loop ends, behind the service and between two rounds. -/
theorem optionsInit_no_peer (v : line.ArgVector) (hpeer : line.peer = none) :
    ∃ s, line.Between s ∧ line.Addressed s ∧
      optionsInit v.argv = .ok (s.opts, optionsCheck s.opts) := by
  have hservice : ({ option := line.service.option, value := line.address } : OptionArg) ∈
      v.args.map WrittenArg.toOptionArg :=
    v.perm.symm.subset List.mem_cons_self
  have haddressed : ∀ arg ∈ v.args.map WrittenArg.toOptionArg, ∀ s s', line.Addressed s →
      optionsStep s arg = .ok s' → line.Addressed s' := by
    intro arg harg s s' hs hround
    exact hs.round (v.perm.subset harg) hround
  rw [optionsInit_eq]
  cases hrun : (v.args.map WrittenArg.toOptionArg).foldlM optionsStep
      { opts := .zero, argPtr := none } with
  | error fault =>
      obtain ⟨arg, harg, s, _, hround⟩ :=
        foldlM_error line.Between v.between_round line.between_start hrun
      have hstops := map_eq_error.mp hround
      obtain rfl | ⟨id, _, rfl⟩ | ⟨peer, hsome, _⟩ := items_cases (v.perm.subset harg)
      · rw [OptionArg.found, service_round] at hstops
        cases hstops
      · rw [OptionArg.found, id_round] at hstops
        cases hstops
      · rw [hpeer] at hsome
        cases hsome
  | ok s =>
      refine ⟨s, foldlM_invariant line.Between v.between_round line.between_start hrun, ?_, rfl⟩
      apply foldlM_established line.Between line.Addressed v.between_round haddressed hservice _
        line.between_start hrun
      intro s s' _ hround
      obtain ⟨goesOn, hround⟩ := fst_map_eq_ok hround
      rw [OptionArg.found, service_round] at hround
      cases hround
      exact ⟨rfl, rfl, rfl⟩

end CommandLine

/-- The vectors that are served are those that ask to start without a peer: they are
refused.  With a peer a NULL string is read, and in any other the port has lost a digit. -/
theorem options_round_trip_iff (line : CommandLine) (v : line.ArgVector) :
    line.Served (optionsInit v.argv) ↔ line.service = .start ∧ line.peer = none := by
  constructor
  · rintro ⟨opts, rc, hrun, hserved⟩
    have hpeer : line.peer = none := by
      cases hsome : line.peer with
      | none => rfl
      | some peer =>
          obtain ⟨fault, hfault⟩ := CommandLine.optionsInit_peer v hsome
          rw [hfault] at hrun
          cases hrun
    refine ⟨?_, hpeer⟩
    obtain ⟨s, hbetween, haddressed, heq⟩ := CommandLine.optionsInit_no_peer v hpeer
    rw [hrun] at heq
    cases heq
    rcases hserved with hfailed | hheld
    · by_contra hservice
      have hcheck : optionsCheck s.opts = 0 := by
        unfold optionsCheck
        rw [haddressed.type, haddressed.host]
        cases h : line.service with
        | start => exact absurd h hservice
        | join => rfl
        | leave => rfl
      rw [hcheck] at hfailed
      cases hfailed
    · have htail : line.port.tail = line.port := by
        have hport := haddressed.raftPort.symm.trans hheld.raftPort
        exact Option.some.inj hport
      have hpos := List.length_pos_of_ne_nil line.port_ne_nil
      have hlength := congrArg List.length htail
      rw [List.length_tail] at hlength
      omega
  · rintro ⟨hservice, hpeer⟩
    obtain ⟨s, hbetween, haddressed, hrun⟩ := CommandLine.optionsInit_no_peer v hpeer
    refine ⟨s.opts, optionsCheck s.opts, hrun, .inl ?_⟩
    unfold optionsCheck
    rw [haddressed.type, haddressed.host, hbetween.peer, hservice]
    rfl

/-- A request to join at `127.0.0.1:9001`. -/
def joinRequest : CommandLine where
  service := .join
  host := ascii ['1', '2', '7', '.', '0', '.', '0', '.', '1']
  port := ascii ['9', '0', '0', '1']
  id := none
  peer := none
  host_ne_nil := by decide
  host_no_colon := by decide +kernel
  port_ne_nil := by decide
  port_digits := by decide +kernel

/-- `--join 127.0.0.1:9001`. -/
def joinVector : joinRequest.ArgVector where
  program := ascii ['t', 'i', 'c', 'k', 'e', 't', 'd']
  args := [{ option := joinOption, value := joinRequest.address, joined := false }]
  perm := .refl _

/-- It returns 0 with the port `001`. -/
theorem join_loses_digit : ¬ joinRequest.Served (optionsInit joinVector.argv) := by
  rintro ⟨opts, rc, hrun, hserved⟩
  have hvalue : optionsInit joinVector.argv =
      .ok ({ Options.zero with
        typeInfo := { name := some joinOption.name, type := .join }
        host := some joinRequest.host
        raftPort := some (ascii ['0', '0', '1'])
        servicePort := some (ascii ['2']) }, 0) := by
    decide
  rw [hvalue] at hrun
  cases hrun
  rcases hserved with hfailed | hheld
  · cases hfailed
  · exact absurd hheld.raftPort (by decide)

end IdAllocator
