import LugalOS.Lib.CString

namespace LugalOS.Dhcp

open CString

def dhcpdLeases : Nat := 4
def dhcpdLeaseS : UInt32 := 3600
def dhcpdMaxReply : Nat := 320

/-- An offer that is never requested frees its address after this. -/
def offerHoldS : UInt32 := 30

def msgDiscover : UInt8 := 1
def msgOffer : UInt8 := 2
def msgRequest : UInt8 := 3
def msgDecline : UInt8 := 4
def msgAck : UInt8 := 5
def msgNak : UInt8 := 6
def msgRelease : UInt8 := 7

abbrev Ip := Vector UInt8 4
abbrev Mac := Vector UInt8 6

/-- memcpy of n bytes at offset o of a message. -/
def field (n o : Nat) (b : Bytes) : Vector UInt8 n := Vector.ofFn fun i => b.getD (o+i) 0

structure Config where
  serverIp : Ip
  mask : Ip
  firstIp : Ip
  portalUri : Option Bytes

structure Lease where
  mac : Mac
  ip : Ip
  untilS : UInt32
  offeredOnly : Bool

structure Dhcpd where
  cfg : Config
  lease : Fin dhcpdLeases → Lease

def Dhcpd.set (d : Dhcpd) (i : Fin dhcpdLeases) (l : Lease) : Dhcpd :=
  {d with lease := Function.update d.lease i l}

/-- The address of slot i: the last byte counts up from the first address. -/
def poolIp (cfg : Config) (i : Nat) : Ip := cfg.firstIp.set 3 (cfg.firstIp[3]+i.toUInt8)

def dhcpdInit (cfg : Config) : Dhcpd where
  cfg := cfg
  lease i := {mac := Vector.replicate 6 0, ip := poolIp cfg i, untilS := 0, offeredOnly := false}

def leaseLive (l : Lease) (nowS : UInt32) : Bool :=
  decide (l.untilS≠0) && decide (0<(l.untilS-nowS).toInt32)

/-- The slot this client already has, else a free (or expired) one. -/
def leaseFor (d : Dhcpd) (mac : Mac) (nowS : UInt32) : Option (Fin dhcpdLeases) :=
  ((List.finRange dhcpdLeases).find? fun i => leaseLive (d.lease i) nowS && (d.lease i).mac==mac).or
    ((List.finRange dhcpdLeases).find? fun i => !leaseLive (d.lease i) nowS)

/-- The scan of find_option from index i: the option's value as an offset and a length. Every read
is behind its bound. -/
def findOptionFrom (opts : Bytes) (code : UInt8) : Nat → Nat → Option (Nat × UInt8)
  | 0,_ => none
  | fuel+1,i =>
    if h : i<opts.length then
      let c := opts[i]
      if c=255 then none
      else if c=0 then findOptionFrom opts code fuel (i+1)
      else if h1 : i+1<opts.length then
        let l := opts[i+1]
        if opts.length < i+2+l.toNat then none
        else if c=code then some (i+2,l)
        else findOptionFrom opts code fuel (i+2+l.toNat)
      else none
    else none

/-- Each round moves on by a byte at least, so there is a round for each byte. -/
def findOption (opts : Bytes) (code : UInt8) : Option (Nat × UInt8) :=
  findOptionFrom opts code opts.length 0

def optionOf (n : Nat) (opts : Bytes) (code : UInt8) : Option (Vector UInt8 n) :=
  match findOption opts code with
  | some (p,l) => if l.toNat=n then some (field n p opts) else none
  | none => none

def magic : Bytes := [0x63,0x82,0x53,0x63]

def options (req : Bytes) : Bytes := req.drop 240

def clientMac (req : Bytes) : Mac := field 6 28 req

/-- The type of a request that is for this server. -/
def requestType (cfg : Config) (req : Bytes) : Option UInt8 :=
  if req.length<240 ∨ req.getD 0 0≠1 ∨ req.getD 1 0≠1 ∨ req.getD 2 0≠6 then none
  else if (field 4 236 req).toList≠magic then none
  else
    match optionOf 1 (options req) 53 with
    | none => none
    | some t =>
      match optionOf 4 (options req) 54 with
      | some sid => if sid=cfg.serverIp then some t[0] else none
      | none => some t[0]

/-- The address a DHCPREQUEST asks for: option 50, or ciaddr in a renewal. -/
def askedIp (req : Bytes) : Ip :=
  match optionOf 4 (options req) 50 with
  | some want => want
  | none => field 4 12 req

/-- What dhcpd_handle leaves in the caller's buffer: the bytes it wrote, and the length it
returned. -/
structure Reply where
  written : Bytes
  len : Nat
deriving DecidableEq

def wr32 (v : UInt32) : Bytes :=
  [(v>>>24).toUInt8,(v>>>16).toUInt8,(v>>>8).toUInt8,v.toUInt8]

/-- The fixed part of the reply: 240 bytes, zero where nothing is set. -/
def replyHead (cfg : Config) (req : Bytes) (yiaddr : Ip) : Bytes :=
  [2,1,6,0]++(field 4 4 req).toList++[0,0,0x80,0]++List.replicate 4 0++yiaddr.toList++
    cfg.serverIp.toList++List.replicate 4 0++(clientMac req).toList++List.replicate 202 0++magic

def portalOption (cfg : Config) : Bytes :=
  match cfg.portalUri with
  | none => []
  | some uri => if 0<uri.length ∧ uri.length<100 then [114,uri.length.toUInt8]++uri else []

/-- What an OFFER and an ACK carry and a NAK does not. -/
def leaseOptions (cfg : Config) : Bytes :=
  [51,4]++wr32 dhcpdLeaseS++[58,4]++wr32 (dhcpdLeaseS/2)++[59,4]++wr32 (dhcpdLeaseS*7/8)++
    [1,4]++cfg.mask.toList++[3,4]++cfg.serverIp.toList++[6,4]++cfg.serverIp.toList++
    portalOption cfg

def reply (cfg : Config) (req : Bytes) (rtype : UInt8) (lease : Option Ip) : Reply :=
  let out := replyHead cfg req (lease.getD (Vector.replicate 4 0))++[53,1,rtype]++
    [54,4]++cfg.serverIp.toList++(if rtype=msgNak then [] else leaseOptions cfg)++[255]
  {written := out, len := max 300 out.length}

def releaseLeases (d : Dhcpd) (mac : Mac) (nowS : UInt32) : Dhcpd :=
  {d with lease := fun i =>
    if (d.lease i).mac=mac ∧ leaseLive (d.lease i) nowS then {d.lease i with untilS := 0}
    else d.lease i}

def handleDiscover (d : Dhcpd) (req : Bytes) (nowS : UInt32) : Dhcpd × Option Reply :=
  match leaseFor d (clientMac req) nowS with
  | none => (d,none)
  | some i =>
    (d.set i {d.lease i with
        mac := clientMac req, untilS := nowS+offerHoldS, offeredOnly := true},
      some (reply d.cfg req msgOffer (some (d.lease i).ip)))

def handleRequest (d : Dhcpd) (req : Bytes) (nowS : UInt32) : Dhcpd × Option Reply :=
  let refuse := (d,some (reply d.cfg req msgNak none))
  match leaseFor d (clientMac req) nowS with
  | none => refuse
  | some i =>
    if (d.lease i).ip=askedIp req then
      (d.set i {d.lease i with
          mac := clientMac req, untilS := nowS+dhcpdLeaseS, offeredOnly := false},
        some (reply d.cfg req msgAck (some (d.lease i).ip)))
    else refuse

def dhcpdHandle (d : Dhcpd) (req : Bytes) (nowS : UInt32) : Dhcpd × Option Reply :=
  match requestType d.cfg req with
  | none => (d,none)
  | some type =>
    if type=msgRelease ∨ type=msgDecline then (releaseLeases d (clientMac req) nowS,none)
    else if type=msgDiscover then handleDiscover d req nowS
    else if type=msgRequest then handleRequest d req nowS
    else (d,none)

theorem findOptionFrom_inside (opts : Bytes) (code : UInt8) (fuel i p : Nat) (l : UInt8)
    (h : findOptionFrom opts code fuel i=some (p,l)) : p+l.toNat≤opts.length := by
  induction fuel generalizing i with
  | zero => cases h
  | succ fuel ih =>
    rw [findOptionFrom] at h
    dsimp only at h
    split_ifs at h
    · exact ih _ h
    · cases h
      omega
    · exact ih _ h

theorem findOptionFrom_value (opts : Bytes) (code : UInt8) (fuel i p : Nat) (l : UInt8)
    (h : findOptionFrom opts code fuel i=some (p,l)) : i+2≤p := by
  induction fuel generalizing i with
  | zero => cases h
  | succ fuel ih =>
    rw [findOptionFrom] at h
    dsimp only at h
    split_ifs at h
    · have := ih _ h
      omega
    · cases h
      omega
    · have := ih _ h
      omega

theorem findOption_value (opts : Bytes) (code : UInt8) (p : Nat) (l : UInt8)
    (h : findOption opts code=some (p,l)) : 2≤p := by
  have := findOptionFrom_value opts code _ _ p l h
  omega

theorem findOption_inside (opts : Bytes) (code : UInt8) (p : Nat) (l : UInt8)
    (h : findOption opts code=some (p,l)) : p+l.toNat≤opts.length :=
  findOptionFrom_inside opts code _ _ p l h

end LugalOS.Dhcp
