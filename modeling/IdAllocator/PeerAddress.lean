/-
The address of a peer on its way through a configuration entry.

`append_cfg_change` copies the text of the address into a field that is as long
as the longest address, without its end, and ends it one character early.
`offer_cfg_change` finds a connection by the text, or has it parsed again.
-/
import IdAllocator.Connections

namespace IdAllocator

open Bytes PeerServer

/-! ### The entry -/

/-- `strcpy` to a field, with what stands behind it in the same object. -/
def strcpy (field text : List UInt8) : Option (List UInt8) :=
  if text.length < field.length then some (text ++ 0 :: field.drop (text.length + 1)) else none

/-- The data of the entry that `append_cfg_change` builds.  The structure ends with the 15
characters of `host` and a byte of padding. -/
def cfgChangeData (host : List UInt8) (raftPort httpPort nodeId : BitVec 32) :
    Option (List UInt8) :=
  (strcpy (List.replicate 16 0) host).map fun field =>
    intBytes raftPort ++ (intBytes httpPort ++ (intBytes nodeId ++ field.set 14 0))

/-- The data of an entry as an `entry_cfg_change_t`, with the ports. -/
def peerCfgChange (data : List UInt8) : Option PeerCfgChange :=
  (entryCfgChange data).map fun change =>
    { change with
      raftPort := (readInt data).toInt
      httpPort := (readInt (data.drop 4)).toInt }

theorem takeWhile_append_zero {text : List UInt8} (htext : ∀ c ∈ text, c ≠ 0)
    (rest : List UInt8) : ((text ++ 0 :: rest).takeWhile fun c => c ≠ 0) = text := by
  rw [List.takeWhile_append_of_pos (by simpa using htext),
    List.takeWhile_cons_of_neg (by simp), List.append_nil]

/-- What is read back of a text is what `hostField` says. -/
theorem host_roundTrip {text field : List UInt8} (htext : ∀ c ∈ text, c ≠ 0)
    (hcopy : strcpy (List.replicate 16 0) text = some field) :
    ((field.set 14 0).takeWhile fun c => c ≠ 0) = hostField text ∧ field.length = 16 := by
  unfold strcpy at hcopy
  split at hcopy
  · rename_i hfits
    rw [List.length_replicate] at hfits
    cases hcopy
    have hlength : (text ++ 0 :: (List.replicate 16 (0 : UInt8)).drop (text.length + 1)).length =
        16 := by
      simp
      omega
    refine ⟨?_, hlength⟩
    by_cases hlong : 14 ≤ text.length
    · rw [List.set_eq_take_append_cons_drop, if_pos (by omega),
        List.take_append_of_le_length hlong]
      exact takeWhile_append_zero (fun c hc => htext c (List.mem_of_mem_take hc)) _
    · -- the text ends before the place of the forced end, which stands in the zeros
      obtain ⟨k, hk⟩ : ∃ k, 14 - text.length = k + 1 := ⟨13 - text.length, by omega⟩
      rw [List.set_append_right _ _ (by omega), hk, List.set_cons_succ,
        takeWhile_append_zero htext, hostField, List.take_of_length_le (by omega)]
  · cases hcopy

/-- The entry read back is the change, with the text of the host cut. -/
theorem peerCfgChange_roundTrip {text data : List UInt8} {raftPort httpPort nodeId : BitVec 32}
    (htext : ∀ c ∈ text, c ≠ 0) (hdata : cfgChangeData text raftPort httpPort nodeId = some data) :
    peerCfgChange data = some
      { nodeId := nodeId.toInt
        host := hostField text
        raftPort := raftPort.toInt
        httpPort := httpPort.toInt } := by
  obtain ⟨field, hcopy, rfl⟩ := Option.map_eq_some_iff.mp hdata
  obtain ⟨hhost, hlength⟩ := host_roundTrip htext hcopy
  have hint : ∀ v : BitVec 32, (intBytes v).length = 4 := fun _ => rfl
  have hfour : ∀ (v : BitVec 32) (rest : List UInt8), (intBytes v ++ rest).drop 4 = rest :=
    fun v rest => List.drop_left' (hint v)
  have height : ∀ (v w : BitVec 32) (rest : List UInt8),
      (intBytes v ++ (intBytes w ++ rest)).drop 8 = rest := by
    intro v w rest
    rw [show 8 = 4 + 4 from rfl, ← List.drop_drop, hfour, hfour]
  have htwelve : ∀ (v w x : BitVec 32) (rest : List UInt8),
      (intBytes v ++ (intBytes w ++ (intBytes x ++ rest))).drop 12 = rest := by
    intro v w x rest
    rw [show 12 = 8 + 4 from rfl, ← List.drop_drop, height, hfour]
  rw [peerCfgChange, entryCfgChange, if_neg (by simp [hint, hlength]), height, htwelve, hhost,
    Option.map_some, readInt_append, readInt_append, hfour, readInt_append]

/-! ### The text of an address -/

/-- What is checked for all values of an octet. -/
theorem forall_octet {P : UInt8 → Prop} (h : ∀ n < 256, P (UInt8.ofNat n)) (octet : UInt8) :
    P octet := by
  have hlt := octet.toNat_lt
  have hoctet := h octet.toNat hlt
  rwa [UInt8.ofNat_toNat] at hoctet

theorem octetText_chars (octet : UInt8) : ∀ c ∈ octetText octet, c ≠ 0 ∧ c ≠ 46 := by
  have hall : ∀ octet, (octetText octet).all (fun c => c != 0 && c != 46) = true :=
    forall_octet (by decide +kernel)
  intro c hc
  simpa using List.all_eq_true.mp (hall octet) c hc

theorem octetText_length (octet : UInt8) :
    (octetText octet).length ≤ 3 ∧ ((octetText octet).length = 3 ↔ 100 ≤ octet) := by
  revert octet
  exact forall_octet (by decide +kernel)

/-- Without its last digit, an octet of three digits reads as another one. -/
theorem octetText_cut (octet : UInt8) (h : 100 ≤ octet) :
    (octetText octet).take 2 = octetText (octet / 10) ∧ octet / 10 ≠ octet := by
  revert octet
  exact forall_octet (by decide +kernel)

theorem inetNtoa_chars (addr : InAddr) : ∀ c ∈ inetNtoa addr, c ≠ 0 := by
  intro c hc
  have hoctet : ∀ octet, c ∈ octetText octet → c ≠ 0 := fun octet hc =>
    (octetText_chars octet c hc).1
  have hdot : c = 46 → c ≠ 0 := by
    rintro rfl
    decide
  simp only [inetNtoa, List.mem_append, List.mem_cons] at hc
  rcases hc with ((hc | hc | hc) | hc | hc) | hc | hc
  · exact hoctet _ hc
  · exact hdot hc
  · exact hoctet _ hc
  · exact hdot hc
  · exact hoctet _ hc
  · exact hdot hc
  · exact hoctet _ hc

theorem inetNtoa_length (addr : InAddr) :
    (inetNtoa addr).length = (octetText addr.a).length + (octetText addr.b).length +
      (octetText addr.c).length + (octetText addr.d).length + 3 := by
  simp only [inetNtoa, List.length_append, List.length_cons]
  omega

/-- The text fits into the field with its end when not all octets have three digits. -/
theorem inetNtoa_fits_iff (addr : InAddr) :
    (inetNtoa addr).length ≤ 14 ↔
      addr.a < 100 ∨ addr.b < 100 ∨ addr.c < 100 ∨ addr.d < 100 := by
  obtain ⟨ha, ha'⟩ := octetText_length addr.a
  obtain ⟨hb, hb'⟩ := octetText_length addr.b
  obtain ⟨hc, hc'⟩ := octetText_length addr.c
  obtain ⟨hd, hd'⟩ := octetText_length addr.d
  rw [inetNtoa_length, ← UInt8.not_le, ← UInt8.not_le, ← UInt8.not_le, ← UInt8.not_le, ← ha',
    ← hb', ← hc', ← hd']
  omega

/-- Where the text does not fit, the field holds the text of another address. -/
theorem hostField_cut {addr : InAddr} (h : ¬ (inetNtoa addr).length ≤ 14) :
    hostField (inetNtoa addr) = inetNtoa { addr with d := addr.d / 10 } ∧
      { addr with d := addr.d / 10 } ≠ addr := by
  rw [inetNtoa_fits_iff, not_or, not_or, not_or, UInt8.not_lt, UInt8.not_lt, UInt8.not_lt,
    UInt8.not_lt] at h
  obtain ⟨ha, hb, hc, hd⟩ := h
  obtain ⟨hcut, hne⟩ := octetText_cut addr.d hd
  have hthree : ∀ octet, 100 ≤ octet → (octetText octet).length = 3 := fun octet hoctet =>
    (octetText_length octet).2.mpr hoctet
  constructor
  · obtain ⟨front, hlength, htext⟩ : ∃ front : List UInt8, front.length = 12 ∧
        ∀ d, inetNtoa { addr with d := d } = front ++ octetText d := by
      refine ⟨octetText addr.a ++ 46 :: octetText addr.b ++ 46 :: octetText addr.c ++ [46], ?_, ?_⟩
      · simp [hthree _ ha, hthree _ hb, hthree _ hc]
      · intro d
        simp [inetNtoa]
    have hwhole : inetNtoa addr = front ++ octetText addr.d := htext addr.d
    rw [hostField, hwhole, htext, List.take_append, hlength, List.take_of_length_le (by omega),
      hcut]
  · intro heq
    exact hne (congrArg InAddr.d heq)

/-! ### Looking up and connecting -/

/-- What `uv_ip4_addr` leaves in a `struct sockaddr_in`. -/
def uvSockaddr (uvIp4Addr : List UInt8 → Option InAddr) (host : List UInt8) (port : Int) :
    Option (InAddr × UInt16) :=
  (uvIp4Addr host).map fun addr => (addr, UInt16.ofNat (port % 65536).toNat)

/-- On every server, a change that is offered is looked up under an address and a port, and
connected to them. -/
structure LeadsTo (uvIp4Addr : List UInt8 → Option InAddr) (change : PeerCfgChange)
    (addr : InAddr) (port : UInt16) : Prop where
  finds : ∀ sv : PeerServer, sv.findConnection (.text change.host) change.raftPort =
    sv.conns.find? fun conn => conn.addr = addr && conn.raftPort = (port.toNat : Int)
  sets : ∀ (sv : PeerServer) (ref : Nat),
    sv.connectionSetPeer uvIp4Addr ref change.host change.raftPort =
      some (sv.setConn ref fun conn => { conn with raftPort := port.toNat, addr := addr })
  connects : uvSockaddr uvIp4Addr change.host change.raftPort = some (addr, port)

/-- The entry that is built for a peer leads to it. -/
def AddressKept (uvIp4Addr : List UInt8 → Option InAddr) (addr : InAddr) (port : UInt16)
    (httpPort nodeId : BitVec 32) : Prop :=
  ∃ data change,
    cfgChangeData (inetNtoa addr) (port.toBitVec.zeroExtend 32) httpPort nodeId = some data ∧
      peerCfgChange data = some change ∧ LeadsTo uvIp4Addr change addr port

section Kept

variable {uvIp4Addr : List UInt8 → Option InAddr}

theorem cfgChangeData_isSome (addr : InAddr) (raftPort httpPort nodeId : BitVec 32) :
    ∃ data, cfgChangeData (inetNtoa addr) raftPort httpPort nodeId = some data := by
  have hlength : (inetNtoa addr).length < (List.replicate 16 (0 : UInt8)).length := by
    have ha := (octetText_length addr.a).1
    have hb := (octetText_length addr.b).1
    have hc := (octetText_length addr.c).1
    have hd := (octetText_length addr.d).1
    rw [inetNtoa_length, List.length_replicate]
    omega
  rw [cfgChangeData, strcpy, if_pos hlength]
  exact ⟨_, rfl⟩

/-- A port is kept in an `int`, and in the address. -/
theorem port_roundTrip (port : UInt16) :
    (port.toBitVec.zeroExtend 32).toInt = port.toNat ∧
      UInt16.ofNat (((port.toNat : Int) % 65536).toNat) = port := by
  have hlt := port.toNat_lt
  constructor
  · rw [BitVec.toInt_eq_toNat_of_lt]
    · simp
    · simp
      omega
  · have hmod : ((port.toNat : Int) % 65536).toNat = port.toNat := by omega
    rw [hmod, UInt16.ofNat_toNat]

/-- A change with the whole text of an address leads to it. -/
theorem leadsTo_of_host (huv : ∀ addr, uvIp4Addr (inetNtoa addr) = some addr)
    {change : PeerCfgChange} {addr : InAddr} {port : UInt16} (hhost : change.host = inetNtoa addr)
    (hport : change.raftPort = port.toNat) : LeadsTo uvIp4Addr change addr port := by
  have hinj : ∀ other, inetNtoa addr = inetNtoa other ↔ other = addr := by
    intro other
    constructor
    · intro htext
      have hparsed := huv addr
      rw [htext, huv other] at hparsed
      exact Option.some.inj hparsed
    · rintro rfl
      rfl
  refine ⟨?_, ?_, ?_⟩
  · intro sv
    rw [findConnection, hhost, hport]
    simp only [HostText.isAddr, hinj]
  · intro sv ref
    rw [connectionSetPeer, hhost, huv, hport]
    rfl
  · rw [uvSockaddr, hhost, huv, hport, Option.map_some, (port_roundTrip port).2]

/-- The entry leads to the peer that it was built for exactly when not all octets of the
address have three digits. -/
theorem cfg_change_address_kept_iff (huv : ∀ addr, uvIp4Addr (inetNtoa addr) = some addr)
    (addr : InAddr) (port : UInt16) (httpPort nodeId : BitVec 32) :
    AddressKept uvIp4Addr addr port httpPort nodeId ↔
      addr.a < 100 ∨ addr.b < 100 ∨ addr.c < 100 ∨ addr.d < 100 := by
  obtain ⟨data, hdata⟩ :=
    cfgChangeData_isSome addr (port.toBitVec.zeroExtend 32) httpPort nodeId
  have hchange := peerCfgChange_roundTrip (inetNtoa_chars addr) hdata
  rw [← inetNtoa_fits_iff]
  constructor
  · rintro ⟨data', change, hdata', hchange', hleads⟩
    rw [hdata] at hdata'
    cases hdata'
    rw [hchange] at hchange'
    cases hchange'
    by_contra hlong
    obtain ⟨hcut, hne⟩ := hostField_cut hlong
    have hconnects := hleads.connects
    rw [uvSockaddr, hcut, huv, Option.map_some, Option.some.injEq, Prod.mk.injEq] at hconnects
    exact hne hconnects.1
  · intro hfits
    exact ⟨data, _, hdata, hchange, leadsTo_of_host huv (List.take_of_length_le hfits)
      (port_roundTrip port).1⟩

end Kept

/-! ### A parser -/

/-- One octet, as `inet_pton` reads it: no other text than the canonical one is taken. -/
def parseOctet (digits : List UInt8) : Option UInt8 :=
  let octet := UInt8.ofNat (digits.foldl (fun n c => 10 * n + (c.toNat - 48)) 0)
  if octetText octet = digits then some octet else none

/-- `inet_pton`. -/
def inetPton (text : List UInt8) : Option InAddr :=
  match text.splitOn 46 with
  | [a, b, c, d] => do return ⟨← parseOctet a, ← parseOctet b, ← parseOctet c, ← parseOctet d⟩
  | _ => none

theorem parseOctet_octetText (octet : UInt8) : parseOctet (octetText octet) = some octet := by
  revert octet
  exact forall_octet (by decide +kernel)

theorem inetPton_inetNtoa (addr : InAddr) : inetPton (inetNtoa addr) = some addr := by
  have hdots : ∀ octet, (46 : UInt8) ∉ octetText octet := fun octet hmem =>
    (octetText_chars octet 46 hmem).2 rfl
  have hsplit : (inetNtoa addr).splitOn 46 =
      [octetText addr.a, octetText addr.b, octetText addr.c, octetText addr.d] := by
    have htext : inetNtoa addr = [46].intercalate
        [octetText addr.a, octetText addr.b, octetText addr.c, octetText addr.d] := by
      simp [inetNtoa, List.intercalate]
    rw [htext]
    apply List.splitOn_intercalate
    · simp [hdots]
    · simp
  rw [inetPton, hsplit]
  simp only [parseOctet_octetText]
  rfl

theorem cfg_change_address_kept_tenNet :
    AddressKept inetPton ⟨10, 0, 0, 2⟩ 9000 8000 2 :=
  (cfg_change_address_kept_iff inetPton_inetNtoa ⟨10, 0, 0, 2⟩ 9000 8000 2).mpr (by decide)

/-- The change for 192.168.100.200 leads to 192.168.100.20. -/
theorem full_address_cut :
    ¬ ∀ (addr : InAddr) (port : UInt16) (httpPort nodeId : BitVec 32),
      AddressKept inetPton addr port httpPort nodeId := by
  intro hclaim
  have hview : (cfgChangeData (inetNtoa ⟨192, 168, 100, 200⟩) 9000 8000 2).bind peerCfgChange =
      some ⟨⟨2, inetNtoa ⟨192, 168, 100, 20⟩⟩, 9000, 8000⟩ := by
    decide +kernel
  obtain ⟨data, change, hdata, hchange, hleads⟩ := hclaim ⟨192, 168, 100, 200⟩ 9000 8000 2
  have heq : cfgChangeData (inetNtoa ⟨192, 168, 100, 200⟩) 9000 8000 2 = some data := hdata
  rw [heq, Option.bind_some, hchange] at hview
  cases hview
  have hconnects := hleads.connects
  rw [uvSockaddr, inetPton_inetNtoa] at hconnects
  exact absurd hconnects (by decide)

end IdAllocator
