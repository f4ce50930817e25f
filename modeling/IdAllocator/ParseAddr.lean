/-
The text of the peer to join, `parse_addr` and its caller in `main`.

The scanner is driven by tables that were made from `parse_addr.rl`.  They are
first shown to be a small state diagram, and this diagram is then followed
through a host and a port.
-/
import IdAllocator.Options
import IdAllocator.PeerAddress
import IdAllocator.Lib.TableScanner

namespace IdAllocator

open Getopt TableScanner

/-! ### The scanner -/

/-- `addr_parse_result_t`.  A pointer is an offset into the text, and a field that nothing has
been written to is `none`. -/
structure AddrParseResult where
  isIpAddress : Option Int
  ip : Option Nat
  ipLen : Option Nat
  host : Option Nat
  hostLen : Option Nat
  port : Option Nat
  portLen : Option Nat
deriving Repr, DecidableEq

/-- `struct addr_parse`. -/
structure AddrParse where
  r : AddrParseResult
  cs : Nat
deriving Repr, DecidableEq

def addrParseActions : List Nat := [
  0, 1, 0, 1, 2, 1, 3, 1,
  4, 1, 5, 2, 3, 1]

def addrParseKeyOffsets : List Nat := [
  0, 0, 11, 13, 25, 27, 39, 51,
  63]

def addrParseTransKeys : List Int := [
  61, 95, 126, 45, 46, 48, 57, 65,
  90, 97, 122, 48, 57, 58, 61, 95,
  126, 45, 46, 48, 57, 65, 90, 97,
  122, 48, 57, 58, 61, 95, 126, 45,
  46, 48, 57, 65, 90, 97, 122, 58,
  61, 95, 126, 45, 46, 48, 57, 65,
  90, 97, 122, 58, 61, 95, 126, 45,
  46, 48, 57, 65, 90, 97, 122, 58,
  61, 95, 126, 45, 46, 48, 57, 65,
  90, 97, 122, 0]

def addrParseSingleLengths : List Nat := [
  0, 3, 0, 4, 0, 4, 4, 4,
  4]

def addrParseRangeLengths : List Nat := [
  0, 4, 1, 4, 1, 4, 4, 4,
  4]

def addrParseIndexOffsets : List Nat := [
  0, 0, 8, 10, 19, 21, 30, 39,
  48]

def addrParseIndicies : List Nat := [
  0, 0, 0, 0, 2, 0, 0, 1,
  3, 1, 5, 4, 4, 4, 4, 4,
  4, 4, 1, 6, 1, 5, 4, 4,
  4, 4, 7, 4, 4, 1, 5, 4,
  4, 4, 4, 8, 4, 4, 1, 5,
  4, 4, 4, 4, 9, 4, 4, 1,
  10, 4, 4, 4, 4, 9, 4, 4,
  1, 0]

def addrParseTransTargs : List Nat := [
  3, 0, 5, 4, 3, 2, 4, 6,
  7, 8, 2]

def addrParseTransActions : List Nat := [
  3, 0, 3, 7, 0, 5, 0, 0,
  0, 1, 11]

def addrParseEofActions : List Nat := [
  0, 0, 0, 5, 9, 5, 5, 5,
  11]

def addrParseStart : Nat := 1
def addrParseFirstFinal : Nat := 3
def addrParseError : Nat := 0

/-- The `switch` of the loop. -/
def transAction (p : Nat) (r : AddrParseResult) : Nat → AddrParseResult
  | 0 => { r with ip := some p }
  | 1 => { r with ipLen := r.ip.map fun ip => p - ip }
  | 2 => { r with host := some p }
  | 3 => { r with hostLen := r.host.map fun host => p - host }
  | 4 => { r with port := some p }
  | _ => r

/-- The `switch` at the end of the text. -/
def eofAction (p : Nat) (r : AddrParseResult) : Nat → AddrParseResult
  | 1 => { r with ipLen := r.ip.map fun ip => p - ip }
  | 3 => { r with hostLen := r.host.map fun host => p - host }
  | 5 => { r with portLen := r.port.map fun port => p - port }
  | _ => r

/-- A `char`, which is signed. -/
def charCode (c : UInt8) : Int :=
  c.toBitVec.toInt

def addrParser : Scanner UInt8 AddrParseResult where
  keyOffsets := addrParseKeyOffsets
  transKeys := addrParseTransKeys
  singleLengths := addrParseSingleLengths
  rangeLengths := addrParseRangeLengths
  indexOffsets := addrParseIndexOffsets
  trans place := addrParseIndicies.getD place 0
  transTargs := addrParseTransTargs
  transActions := addrParseTransActions
  actions := addrParseActions
  code := charCode
  act p _ := transAction p

def ppInit (result : AddrParseResult) : AddrParse where
  r := result
  cs := addrParseStart

/-- `pp_execute`: the loop, and what is done at the end of the text. -/
def ppExecute (fsm : AddrParse) (data : Text) : AddrParse :=
  let s := addrParser.exec fsm.cs fsm.r data
  if s.1 = 0 then ⟨s.2, 0⟩
  else
    let acts := addrParser.actionList (addrParseEofActions.getD s.1 0)
    ⟨acts.foldl (eofAction data.length) s.2, s.1⟩

def ppFinish (fsm : AddrParse) : Int :=
  if fsm.cs = addrParseError then -1
  else if addrParseFirstFinal ≤ fsm.cs then 1
  else 0

/-- `parse_addr`, with what it leaves in the result. -/
def parseAddr (path : Text) (result : AddrParseResult) : Int × AddrParseResult :=
  let pp := ppExecute (ppInit result) path
  (if ppFinish pp ≠ 1 then -1 else 0, pp.r)

/-! ### The state diagram -/

/-- `unreserved` of `parse_addr.rl`. -/
def isUnreserved (c : UInt8) : Bool :=
  isDigit c || (65 ≤ c && c ≤ 90) || (97 ≤ c && c ≤ 122) || c = 45 || c = 46 || c = 95 ||
    c = 126 || c = 61

/-- What follows a character: the state, and the actions. -/
def ppNext (cs : Nat) (c : UInt8) : Nat × List Nat :=
  addrParser.next cs (charCode c)

/-- The state behind digits alone. -/
def digitCs : Nat → Nat
  | 0 => 1
  | 1 => 5
  | 2 => 6
  | 3 => 7
  | _ => 8

/-- In a host that has `n` digits so far and nothing else. -/
theorem ppNext_digits (n : Nat) (c : UInt8) : ppNext (digitCs n) c =
    if isDigit c then (digitCs (n + 1), if n = 0 then [2] else if 3 ≤ n then [0] else [])
    else if isUnreserved c then (3, if n = 0 then [2] else [])
    else if c = 58 ∧ n ≠ 0 then (2, if 4 ≤ n then [3, 1] else [3])
    else (0, []) := by
  revert c
  match n with
  | 0 => exact forall_octet (by decide +kernel)
  | 1 => exact forall_octet (by decide +kernel)
  | 2 => exact forall_octet (by decide +kernel)
  | 3 => exact forall_octet (by decide +kernel)
  | k + 4 =>
      intro c
      have hfour : 3 ≤ k + 4 ∧ 4 ≤ k + 4 ∧ k + 4 ≠ 0 := by omega
      simp only [hfour, if_true, if_false, ne_eq, not_false_eq_true, and_true, digitCs]
      exact forall_octet (P := fun c => ppNext 8 c = if isDigit c then (8, [0])
        else if isUnreserved c then (3, []) else if c = 58 then (2, [3, 1]) else (0, []))
        (by decide +kernel) c

/-- In any other host. -/
theorem ppNext_host (c : UInt8) : ppNext 3 c =
    if isUnreserved c then (3, []) else if c = 58 then (2, [3]) else (0, []) := by
  revert c
  exact forall_octet (by decide +kernel)

/-- Behind the colon. -/
theorem ppNext_colon (c : UInt8) :
    ppNext 2 c = if isDigit c then (4, [4]) else (0, []) := by
  revert c
  exact forall_octet (by decide +kernel)

/-- In the port. -/
theorem ppNext_port (c : UInt8) :
    ppNext 4 c = if isDigit c then (4, []) else (0, []) := by
  revert c
  exact forall_octet (by decide +kernel)

theorem isUnreserved_of_isDigit {c : UInt8} (h : isDigit c = true) : isUnreserved c = true := by
  simp [isUnreserved, h]

/-! ### The host -/

/-- The digits that a host begins with. -/
def leadingDigits (host : Text) : Nat :=
  (host.takeWhile isDigit).length

/-- The scanner behind a host. -/
def afterHost (r : AddrParseResult) (host : Text) : AddrParse where
  cs := if host.all isDigit then digitCs host.length else 3
  r := { r with
    host := if host = [] then r.host else some 0
    ip := if 4 ≤ leadingDigits host then some (leadingDigits host - 1) else r.ip }

section Host

variable {r : AddrParseResult} {host : Text} {c : UInt8}

theorem leadingDigits_of_all (h : host.all isDigit = true) : leadingDigits host = host.length := by
  rw [leadingDigits, List.takeWhile_eq_self_iff.mpr (List.all_eq_true.mp h)]

theorem leadingDigits_append (c : UInt8) : leadingDigits (host ++ [c]) =
    if host.all isDigit && isDigit c then host.length + 1 else leadingDigits host := by
  by_cases hall : host.all isDigit = true
  · have htake : host.takeWhile isDigit = host :=
      List.takeWhile_eq_self_iff.mpr (List.all_eq_true.mp hall)
    rw [leadingDigits, leadingDigits, List.takeWhile_append, htake, if_pos rfl]
    by_cases hc : isDigit c = true <;> simp [hall, hc]
  · have hshort : ¬ (host.takeWhile isDigit).length = host.length := by
      intro heq
      have hself := ( List.takeWhile_prefix (l := host) isDigit).eq_of_length heq
      exact hall (List.all_eq_true.mpr (List.takeWhile_eq_self_iff.mp hself))
    rw [leadingDigits, leadingDigits, List.takeWhile_append, if_neg hshort]
    simp [hall]

/-- One round of the loop. -/
def ppRound (fsm : AddrParse) (p : Nat) (c : UInt8) : AddrParse where
  cs := (ppNext fsm.cs c).1
  r := (ppNext fsm.cs c).2.foldl (transAction p) fsm.r

theorem scan_round (fsm : AddrParse) (p : Nat) (c : UInt8) (rest : Text) :
    addrParser.scan fsm.cs fsm.r p (c :: rest) =
      if (ppRound fsm p c).cs = 0 then (0, (ppRound fsm p c).r)
      else addrParser.scan (ppRound fsm p c).cs (ppRound fsm p c).r (p + 1) rest :=
  rfl

/-- One more character of a host. -/
theorem ppRound_host (hc : isUnreserved c = true) :
    ppRound (afterHost r host) host.length c = afterHost r (host ++ [c]) := by
  have hlead := @leadingDigits_append host c
  by_cases hall : host.all isDigit = true
  · -- digits alone so far
    have hold := leadingDigits_of_all hall
    rw [hall, Bool.true_and, hold] at hlead
    rcases Nat.eq_zero_or_pos host.length with hzero | hpos
    · rw [List.length_eq_zero_iff] at hzero
      subst hzero
      by_cases hdigit : isDigit c = true
      · simp [ppRound, afterHost, ppNext_digits, transAction, hdigit, leadingDigits]
      · simp [ppRound, afterHost, ppNext_digits, transAction, hdigit, hc, leadingDigits]
    have hne : host ≠ [] := List.ne_nil_of_length_pos hpos
    by_cases hdigit : isDigit c = true
    · by_cases hthree : 3 ≤ host.length
      · simp [ppRound, afterHost, ppNext_digits, transAction, hlead, hdigit, hall, hne, hthree,
          hold]
      · have hfour : ¬ 4 ≤ host.length := by omega
        simp [ppRound, afterHost, ppNext_digits, hlead, hdigit, hall, hne, hthree, hfour, hold]
    · simp [ppRound, afterHost, ppNext_digits, hlead, hdigit, hall, hne, hc, hold]
  · have hne : host ≠ [] := by
      rintro rfl
      exact hall rfl
    simp only [Bool.not_eq_true] at hall
    rw [hall] at hlead
    simp [ppRound, afterHost, ppNext_host, hlead, hall, hne, hc]

theorem digitCs_pos (n : Nat) : digitCs n ≠ 0 := by
  unfold digitCs
  split <;> decide

theorem afterHost_cs_ne_zero (r : AddrParseResult) (host : Text) : (afterHost r host).cs ≠ 0 := by
  change (if host.all isDigit then digitCs host.length else 3) ≠ 0
  split
  · exact digitCs_pos host.length
  · decide

/-- The scanner reads a host. -/
theorem scan_host (hhost : ∀ c ∈ host, isUnreserved c = true) :
    addrParser.scan addrParseStart r 0 host = ((afterHost r host).cs, (afterHost r host).r) := by
  induction host using List.reverseRecOn with
  | nil => rfl
  | append_singleton host c ih =>
      have hc : isUnreserved c = true := hhost c (by simp)
      have hbefore : ∀ d ∈ host, isUnreserved d = true :=
        fun d hd => hhost d (List.mem_append_left _ hd)
      rw [Scanner.scan_append (ih hbefore) (afterHost_cs_ne_zero r host), Nat.zero_add,
        scan_round, ppRound_host hc, if_neg (afterHost_cs_ne_zero r _)]
      rfl

/-- What the scanner has found out when it has read a host to its end. -/
def hostRead (r : AddrParseResult) (host : Text) : AddrParseResult :=
  { (afterHost r host).r with
    hostLen := some host.length
    ipLen := if host.all isDigit ∧ 4 ≤ host.length then some 1 else r.ipLen }

/-- What ends a host: its length, and that of four digits or more. -/
theorem hostRead_eq (hne : host ≠ []) (act : Nat → AddrParseResult → Nat → AddrParseResult)
    (hact : ∀ p r, act p r 3 = { r with hostLen := r.host.map fun host => p - host } ∧
      act p r 1 = { r with ipLen := r.ip.map fun ip => p - ip }) :
    (if host.all isDigit ∧ 4 ≤ host.length then [3, 1] else [3]).foldl (act host.length)
      (afterHost r host).r = hostRead r host := by
  split
  · rename_i hlong
    have hlead := leadingDigits_of_all hlong.1
    have hone : host.length - (host.length - 1) = 1 := by omega
    simp [hact, hostRead, afterHost, hne, hlead, hlong.1, hlong.2, hone]
  · rename_i hshort
    rw [hostRead, if_neg hshort]
    simp [hact, afterHost, hne]

theorem eofActions_digits {n : Nat} (hpos : 0 < n) :
    addrParser.actionList (addrParseEofActions.getD (digitCs n) 0) =
      if 4 ≤ n then [3, 1] else [3] := by
  match n with
  | 1 => rfl
  | 2 => rfl
  | 3 => rfl
  | k + 4 =>
      rw [if_pos (by omega)]
      rfl

/-- A host that the text ends with. -/
theorem eofActions_host (r : AddrParseResult) (hne : host ≠ []) :
    addrParser.actionList (addrParseEofActions.getD (afterHost r host).cs 0) =
      if host.all isDigit ∧ 4 ≤ host.length then [3, 1] else [3] := by
  by_cases hall : host.all isDigit = true
  · have hcs : (afterHost r host).cs = digitCs host.length := by simp [afterHost, hall]
    rw [hcs, eofActions_digits (List.length_pos_of_ne_nil hne)]
    simp [hall]
  · have hcs : (afterHost r host).cs = 3 := by simp [afterHost, hall]
    rw [hcs, if_neg fun h => hall h.1]
    rfl

/-- A host with a colon behind it. -/
theorem ppRound_host_colon (hne : host ≠ []) :
    ppRound (afterHost r host) host.length 58 = ⟨hostRead r host, 2⟩ := by
  rw [← hostRead_eq hne transAction fun p r => ⟨rfl, rfl⟩]
  have hnext : ppNext (afterHost r host).cs 58 =
      (2, if host.all isDigit ∧ 4 ≤ host.length then [3, 1] else [3]) := by
    by_cases hall : host.all isDigit = true
    · have hcs : (afterHost r host).cs = digitCs host.length := by simp [afterHost, hall]
      have hdigit : isDigit 58 = false ∧ isUnreserved 58 = false := by decide
      rw [hcs, ppNext_digits]
      simp [hdigit, hall, hne]
    · have hcs : (afterHost r host).cs = 3 := by simp [afterHost, hall]
      rw [hcs, if_neg fun h => hall h.1]
      rfl
  rw [ppRound, hnext]

/-- A host with any other character behind it. -/
theorem ppRound_host_stop (hc : isUnreserved c = false) (hstop : c = 58 → host = []) (p : Nat) :
    ppRound (afterHost r host) p c = ⟨(afterHost r host).r, 0⟩ := by
  have hdigit : isDigit c = false := by
    by_contra hdigit
    rw [isUnreserved_of_isDigit (by simpa using hdigit)] at hc
    cases hc
  have hnext : ppNext (afterHost r host).cs c = (0, []) := by
    by_cases hall : host.all isDigit = true
    · have hcs : (afterHost r host).cs = digitCs host.length := by simp [afterHost, hall]
      rw [hcs, ppNext_digits]
      simpa [hdigit, hc] using hstop
    · have hcs : (afterHost r host).cs = 3 := by simp [afterHost, hall]
      have hcolon : c ≠ 58 := by
        intro heq
        rw [hstop heq] at hall
        exact hall rfl
      rw [hcs, ppNext_host]
      simp [hc, hcolon]
  rw [ppRound, hnext]
  rfl

end Host

/-! ### The port -/

section Port

variable {r : AddrParseResult}

/-- The scanner in the port. -/
theorem scan_port (p : Nat) (digits : Text) :
    addrParser.scan 4 r p digits = (if digits.all isDigit then 4 else 0, r) := by
  induction digits generalizing p with
  | nil => rfl
  | cons c rest ih =>
      by_cases hc : isDigit c = true
      · have hnext : addrParser.next 4 (addrParser.code c) = (4, []) :=
          (ppNext_port c).trans (if_pos hc)
        rw [Scanner.scan_cons hnext, if_neg (by decide), List.foldl_nil, ih]
        simp [hc]
      · have hnext : addrParser.next 4 (addrParser.code c) = (0, []) :=
          (ppNext_port c).trans (if_neg hc)
        rw [Scanner.scan_cons hnext, if_pos rfl]
        simp [hc]

/-- The scanner behind the colon. -/
theorem scan_colon (p : Nat) (rest : Text) : addrParser.scan 2 r p rest =
    match rest with
    | [] => (2, r)
    | d :: digits =>
        if isDigit d then (if digits.all isDigit then 4 else 0, { r with port := some p })
        else (0, r) := by
  cases rest with
  | nil => rfl
  | cons d digits =>
      by_cases hd : isDigit d = true
      · have hnext : addrParser.next 2 (addrParser.code d) = (4, [4]) :=
          (ppNext_colon d).trans (if_pos hd)
        rw [Scanner.scan_cons hnext, if_neg (by decide), scan_port]
        simp only [if_pos hd]
        rfl
      · have hnext : addrParser.next 2 (addrParser.code d) = (0, []) :=
          (ppNext_colon d).trans (if_neg hd)
        rw [Scanner.scan_cons hnext, if_pos rfl]
        simp only [if_neg hd]
        rfl

end Port

/-! ### Addresses -/

/-- An address, as `parse_addr.rl` describes them: a host, and perhaps a port. -/
structure Addr where
  host : Text
  port : Option Text
  host_ne : host ≠ []
  host_chars : ∀ c ∈ host, isUnreserved c = true
  port_ne : port ≠ some []
  port_chars : ∀ digits ∈ port, ∀ c ∈ digits, isDigit c = true

namespace Addr

def text (a : Addr) : Text :=
  match a.port with
  | none => a.host
  | some digits => a.host ++ 58 :: digits

/-- What is left in the result for an address. -/
def result (a : Addr) (r : AddrParseResult) : AddrParseResult :=
  { hostRead r a.host with
    port := a.port.elim r.port fun _ => some (a.host.length + 1)
    portLen := a.port.elim r.portLen fun digits => some digits.length }

end Addr

/-- A text is a host and what follows it. -/
theorem exists_host (text : Text) : ∃ host rest, text = host ++ rest ∧
    (∀ c ∈ host, isUnreserved c = true) ∧ ∀ c more, rest = c :: more → isUnreserved c = false := by
  refine ⟨text.takeWhile isUnreserved, text.dropWhile isUnreserved, ?_, ?_, ?_⟩
  · exact List.takeWhile_append_dropWhile.symm
  · exact fun c hc => List.mem_takeWhile_imp hc
  · intro c more hrest
    have hhead := List.head?_dropWhile_not isUnreserved text
    rw [hrest] at hhead
    simpa using hhead

section Parse

variable {r : AddrParseResult} {host rest : Text}

/-- A host is followed by its end, by a colon, or by what is no address. -/
theorem exec_host (hhost : ∀ c ∈ host, isUnreserved c = true)
    (hrest : ∀ c more, rest = c :: more → isUnreserved c = false) :
    addrParser.exec addrParseStart r (host ++ rest) =
      if host = [] then (if rest = [] then 1 else 0, r)
      else match rest with
        | [] => ((afterHost r host).cs, (afterHost r host).r)
        | c :: more =>
            if c = 58 then addrParser.scan 2 (hostRead r host) (host.length + 1) more
            else (0, (afterHost r host).r) := by
  rw [Scanner.exec, if_neg (by decide), Scanner.scan_append (scan_host hhost)
    (afterHost_cs_ne_zero r host), Nat.zero_add]
  by_cases hne : host = []
  · subst hne
    cases rest with
    | nil => rfl
    | cons c more =>
        rw [scan_round, ppRound_host_stop (hrest c more rfl) fun _ => rfl]
        rfl
  rw [if_neg hne]
  cases rest with
  | nil => rfl
  | cons c more =>
      by_cases hc : c = 58
      · subst hc
        rw [scan_round, ppRound_host_colon hne]
        rfl
      · rw [scan_round, ppRound_host_stop (hrest c more rfl) fun heq => absurd heq hc]
        simp [hc]

theorem parseAddr_eq_zero {path : Text} {r' : AddrParseResult} : parseAddr path r = (0, r') ↔
    addrParseFirstFinal ≤ (ppExecute (ppInit r) path).cs ∧
      (ppExecute (ppInit r) path).r = r' := by
  unfold parseAddr ppFinish
  simp only [addrParseError, addrParseFirstFinal, Prod.mk.injEq]
  split_ifs <;> simp <;> omega

theorem ppExecute_cs (path : Text) :
    (ppExecute (ppInit r) path).cs = (addrParser.exec addrParseStart r path).1 := by
  unfold ppExecute
  change (if (addrParser.exec addrParseStart r path).1 = 0 then _ else _ : AddrParse).cs = _
  split
  · rename_i hzero
    exact hzero.symm
  · rfl

theorem ppExecute_r {path : Text} {cs : Nat} {r' : AddrParseResult}
    (h : addrParser.exec addrParseStart r path = (cs, r')) :
    (ppExecute (ppInit r) path).r =
      if cs = 0 then r'
      else (addrParser.actionList (addrParseEofActions.getD cs 0)).foldl
        (eofAction path.length) r' := by
  have hsame : addrParser.exec (ppInit r).cs (ppInit r).r path = (cs, r') := h
  unfold ppExecute
  rw [hsame]
  by_cases hcs : cs = 0 <;> simp [hcs]

theorem digitCs_final {n : Nat} (hpos : 0 < n) : addrParseFirstFinal ≤ digitCs n := by
  match n with
  | 1 => decide
  | 2 => decide
  | 3 => decide
  | k + 4 => exact (by decide : addrParseFirstFinal ≤ 8)

theorem afterHost_final (r : AddrParseResult) (hne : host ≠ []) :
    addrParseFirstFinal ≤ (afterHost r host).cs := by
  change 3 ≤ (if host.all isDigit then digitCs host.length else 3)
  split
  · exact digitCs_final (List.length_pos_of_ne_nil hne)
  · exact le_rfl

theorem colon_rest {c : UInt8} {more digits : Text} (h : (58 : UInt8) :: digits = c :: more) :
    isUnreserved c = false := by
  cases h
  decide

theorem Addr.parsed (a : Addr) (r : AddrParseResult) : parseAddr a.text r = (0, a.result r) := by
  rw [parseAddr_eq_zero, ppExecute_cs]
  obtain ⟨host, port, hne, hhost, hport, hdigits⟩ := a
  cases port with
  | none =>
      have hexec := @exec_host r host [] hhost (by simp)
      rw [if_neg hne, List.append_nil] at hexec
      change _ ≤ (addrParser.exec addrParseStart r host).1 ∧ (ppExecute (ppInit r) host).r = _
      rw [ppExecute_r hexec, if_neg (afterHost_cs_ne_zero r host), eofActions_host r hne,
        hostRead_eq hne eofAction fun p r => ⟨rfl, rfl⟩, hexec]
      exact ⟨afterHost_final r hne, rfl⟩
  | some digits =>
      cases digits with
      | nil => exact absurd rfl hport
      | cons d rest =>
          have hall := List.forall_mem_cons.mp (hdigits _ rfl)
          have hexec := @exec_host r host (58 :: d :: rest) hhost fun c more => colon_rest
          simp only [if_neg hne, if_true, scan_colon, hall.1, List.all_eq_true.mpr hall.2] at hexec
          change _ ≤ (addrParser.exec addrParseStart r (host ++ 58 :: d :: rest)).1 ∧
            (ppExecute (ppInit r) (host ++ 58 :: d :: rest)).r = _
          rw [ppExecute_r hexec, if_neg (by decide), hexec]
          refine ⟨(by decide : addrParseFirstFinal ≤ 4), ?_⟩
          have hlength : (host ++ 58 :: d :: rest).length - (host.length + 1) =
              rest.length + 1 := by
            simp
            omega
          have hacts : addrParser.actionList (addrParseEofActions.getD 4 0) = [5] := rfl
          rw [hacts]
          simp only [List.foldl_cons, List.foldl_nil, eofAction, Option.map_some, hlength]
          rfl

/-- `parse_addr` succeeds exactly for addresses, and leaves the parts of the address in the
result. -/
theorem parse_addr_iff (text : Text) (r r' : AddrParseResult) :
    parseAddr text r = (0, r') ↔ ∃ a : Addr, a.text = text ∧ a.result r = r' := by
  constructor
  · intro hparsed
    suffices haddr : ∃ a : Addr, a.text = text by
      obtain ⟨a, rfl⟩ := haddr
      rw [a.parsed r, Prod.mk.injEq] at hparsed
      exact ⟨a, rfl, hparsed.2⟩
    rw [parseAddr_eq_zero, ppExecute_cs] at hparsed
    obtain ⟨hfinal, -⟩ := hparsed
    obtain ⟨host, rest, rfl, hhost, hrest⟩ := exists_host text
    rw [exec_host hhost hrest] at hfinal
    by_cases hne : host = []
    · rw [if_pos hne] at hfinal
      exfalso
      revert hfinal
      change ¬ 3 ≤ (if rest = [] then 1 else 0)
      split <;> decide
    rw [if_neg hne] at hfinal
    cases rest with
    | nil => exact ⟨⟨host, none, hne, hhost, by simp, by simp⟩, (List.append_nil host).symm⟩
    | cons c more =>
        by_cases hc : c = 58
        · subst hc
          simp only [if_true, scan_colon] at hfinal
          cases more with
          | nil => exact absurd hfinal (by decide : ¬ addrParseFirstFinal ≤ 2)
          | cons d digits =>
              by_cases hd : isDigit d = true
              · by_cases hall : digits.all isDigit = true
                · exact ⟨⟨host, some (d :: digits), hne, hhost, by simp, fun _ h => by
                    cases h
                    exact List.forall_mem_cons.mpr ⟨hd, List.all_eq_true.mp hall⟩⟩, rfl⟩
                · simp only [if_pos hd, if_neg hall] at hfinal
                  exact absurd hfinal (by decide : ¬ addrParseFirstFinal ≤ 0)
              · simp only [if_neg hd] at hfinal
                exact absurd hfinal (by decide : ¬ addrParseFirstFinal ≤ 0)
        · simp only [if_neg hc] at hfinal
          exact absurd hfinal (by decide : ¬ addrParseFirstFinal ≤ 0)
  · rintro ⟨a, rfl, rfl⟩
    exact a.parsed r

end Parse

/-! ### The peer to join -/

/-- `addr_parse_result_t res;`, which nobody initialises. -/
def AddrParseResult.unset : AddrParseResult :=
  ⟨none, none, none, none, none, none, none⟩

/-- The text at an offset, up to the first zero. -/
def cString (memory : Text) (offset : Nat) : Text :=
  (memory.drop offset).takeWhile fun c => c ≠ 0

/-- What `main` connects to when it is told to join, or `none` if it uses a field of the result
that has not been set.  It does not ask whether `parse_addr` has succeeded. -/
def joinTarget (peer : Text) : Option (Text × BitVec 32) :=
  let res := (parseAddr peer AddrParseResult.unset).2
  do
    let host ← res.host
    let hostLen ← res.hostLen
    let port ← res.port
    let memory := (peer ++ [0]).set (host + hostLen) 0
    return (cString memory host, atoi (cString memory port))

section Join

variable {peer host digits : Text} {d : UInt8}

/-- A host, a colon and a digit are enough, whatever follows. -/
structure Joinable (peer host : Text) (d : UInt8) (digits : Text) : Prop where
  text : peer = host ++ 58 :: d :: digits
  host_ne : host ≠ []
  host_chars : ∀ c ∈ host, isUnreserved c = true
  digit : isDigit d = true

theorem Joinable.exec_eq (h : Joinable peer host d digits) (r : AddrParseResult) :
    addrParser.exec addrParseStart r peer = (if digits.all isDigit then 4 else 0,
      { hostRead r host with port := some (host.length + 1) }) := by
  have hexec := @exec_host r host (58 :: d :: digits) h.host_chars fun c more => colon_rest
  simp only [if_neg h.host_ne, if_true, scan_colon, h.digit] at hexec
  rw [h.text, hexec]

/-- The fields that `main` uses. -/
theorem Joinable.fields (h : Joinable peer host d digits) (r : AddrParseResult) :
    (parseAddr peer r).2.host = some 0 ∧ (parseAddr peer r).2.hostLen = some host.length ∧
      (parseAddr peer r).2.port = some (host.length + 1) := by
  have hhost : (hostRead r host).host = some 0 := by simp [hostRead, afterHost, h.host_ne]
  have hresult : (parseAddr peer r).2 = (ppExecute (ppInit r) peer).r := rfl
  have hexec := h.exec_eq r
  rw [hresult]
  by_cases hall : digits.all isDigit = true
  · have hacts : addrParser.actionList (addrParseEofActions.getD 4 0) = [5] := rfl
    rw [if_pos hall] at hexec
    rw [ppExecute_r hexec, if_neg (by decide), hacts]
    exact ⟨hhost, rfl, rfl⟩
  · rw [if_neg hall] at hexec
    rw [ppExecute_r hexec, if_pos rfl]
    exact ⟨hhost, rfl, rfl⟩

/-- The end of the text does not set the port. -/
theorem ppExecute_port (r : AddrParseResult) (path : Text) :
    (ppExecute (ppInit r) path).r.port = (addrParser.exec addrParseStart r path).2.port := by
  have hkept : ∀ (p : Nat) (acts : List Nat) (r : AddrParseResult),
      (acts.foldl (eofAction p) r).port = r.port := by
    intro p acts
    induction acts with
    | nil => exact fun _ => rfl
    | cons act rest ih =>
        intro r
        rw [List.foldl_cons, ih]
        unfold eofAction
        split <;> rfl
  rw [ppExecute_r rfl]
  split
  · rfl
  · exact hkept _ _ _

/-- The port is set in no other case. -/
theorem joinable_of_port {port : Nat}
    (h : (parseAddr peer AddrParseResult.unset).2.port = some port) :
    ∃ host d digits, Joinable peer host d digits := by
  change (ppExecute (ppInit AddrParseResult.unset) peer).r.port = some port at h
  obtain ⟨host, rest, rfl, hhost, hrest⟩ := exists_host peer
  rw [ppExecute_port, exec_host hhost hrest] at h
  by_cases hne : host = []
  · rw [if_pos hne] at h
    cases h
  rw [if_neg hne] at h
  cases rest with
  | nil => cases h
  | cons c more =>
      by_cases hc : c = 58
      · subst hc
        simp only [if_true, scan_colon] at h
        cases more with
        | nil => cases h
        | cons d digits =>
            by_cases hd : isDigit d = true
            · exact ⟨host, d, digits, rfl, hne, hhost, hd⟩
            · simp only [if_neg hd] at h
              cases h
      · simp only [if_neg hc] at h
        cases h

theorem Joinable.target (h : Joinable peer host d digits) (hpeer : ∀ c ∈ peer, c ≠ 0) :
    joinTarget peer = some (host, atoi (d :: digits)) := by
  obtain ⟨hhost, hlen, hport⟩ := h.fields AddrParseResult.unset
  have hmemory : (peer ++ [0]).set (0 + host.length) 0 = host ++ 0 :: d :: (digits ++ [0]) := by
    rw [h.text, Nat.zero_add, List.append_assoc, List.set_append_right _ _ le_rfl]
    simp
  have hfront : ∀ c ∈ host, c ≠ 0 := by
    intro c hc
    apply hpeer c
    rw [h.text]
    exact List.mem_append_left _ hc
  have hback : ∀ c ∈ d :: digits, c ≠ 0 := by
    intro c hc
    apply hpeer c
    rw [h.text]
    exact List.mem_append_right _ (List.mem_cons_of_mem _ hc)
  have hname : cString (host ++ 0 :: d :: (digits ++ [0])) 0 = host :=
    takeWhile_append_zero hfront _
  have hnumber : cString (host ++ 0 :: d :: (digits ++ [0])) (host.length + 1) = d :: digits := by
    rw [cString, ← List.drop_drop, List.drop_left, List.drop_one, List.tail_cons]
    exact takeWhile_append_zero hback []
  simp only [joinTarget, hhost, hlen, hport, Option.bind_eq_bind, Option.bind_some, hmemory,
    hname, hnumber]
  rfl

/-- `main` connects to what stands in front of the colon, at the port whose digits stand behind
it.  Without a host, a colon and a digit it uses a field that has not been set. -/
theorem join_target_iff (hpeer : ∀ c ∈ peer, c ≠ 0) (host : Text) (port : BitVec 32) :
    joinTarget peer = some (host, port) ↔
      ∃ d digits, Joinable peer host d digits ∧ port = atoi (d :: digits) := by
  constructor
  · intro htarget
    have hset : ∃ port, (parseAddr peer AddrParseResult.unset).2.port = some port := by
      simp only [joinTarget, Option.bind_eq_bind, Option.bind_eq_some_iff] at htarget
      obtain ⟨_, _, _, _, port, hport, _⟩ := htarget
      exact ⟨port, hport⟩
    obtain ⟨port', hport⟩ := hset
    obtain ⟨host', d, digits, hjoinable⟩ := joinable_of_port hport
    rw [hjoinable.target hpeer, Option.some.injEq, Prod.mk.injEq] at htarget
    obtain ⟨rfl, rfl⟩ := htarget
    exact ⟨d, digits, hjoinable, rfl⟩
  · rintro ⟨d, digits, hjoinable, rfl⟩
    exact hjoinable.target hpeer

/-- A port that is no number to its end is taken as far as it is one. -/
theorem join_target_localhost :
    joinTarget (ascii ['l', 'o', 'c', 'a', 'l', ':', '9', '0', 'x']) =
      some (ascii ['l', 'o', 'c', 'a', 'l'], 90) := by
  have hport : (90 : BitVec 32) = atoi (57 :: ascii ['0', 'x']) := by decide +kernel
  refine (join_target_iff (by decide +kernel) _ _).mpr ⟨57, ascii ['0', 'x'], ⟨?_, ?_, ?_, ?_⟩, hport⟩
  · decide +kernel
  · decide +kernel
  · decide +kernel
  · decide +kernel

end Join

end IdAllocator
