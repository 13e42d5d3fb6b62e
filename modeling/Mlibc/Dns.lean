import Mathlib.Tactic.Common

/-!
# Responses of a name server

The model of `read_dns_name`, and of what `lookup_name_dns` and `lookup_addr_dns` do with one
response.
-/

namespace Mlibc.Dns

abbrev Response := List UInt8

abbrev Name := List UInt8

/-- A read behind the response, a copy that is too long, or a bound on loops. -/
inductive Fault where
  | outside
  | overflow
  | outOfFuel
  deriving DecidableEq

def returnNxdomain : Nat := 3

def recordA : Nat := 1

def recordCname : Nat := 5

def recordPtr : Nat := 12

def recordAaaa : Nat := 28

def headerSize : Nat := 12

def addrSize : Nat := 16

def dot : UInt8 := 46

variable (reply : Response)

def byteAt (it : Nat) : Except Fault UInt8 :=
  match reply[it]? with
  | some byte => .ok byte
  | none => .error .outside

def shortAt (it : Nat) : Except Fault Nat := do
  let high ← byteAt reply it
  let low ← byteAt reply (it + 1)
  return high.toNat * 256 + low.toNat

def appendLabel : Nat → Nat → Name → Except Fault Name
  | 0, _, res => .ok res
  | count + 1, it, res => do
      let byte ← byteAt reply it
      appendLabel count (it + 1) (res ++ [byte])

def pointerOffset (code low : UInt8) : Nat := (code &&& 0x3f).toNat * 256 + low.toNat

def readDnsName : Nat → Nat → Name → Except Fault (Name × Nat)
  | 0, _, _ => .error .outOfFuel
  | fuel + 1, it, res => do
      let code ← byteAt reply it
      if code &&& 0xc0 = 0xc0 then
        let low ← byteAt reply (it + 1)
        let (name, _) ← readDnsName fuel (pointerOffset code low) []
        return (res ++ name, it + 2)
      else if code &&& 0xc0 = 0 then
        if code = 0 then return (res, it + 1)
        else
          let label ← appendLabel reply code.toNat (it + 1) res
          let following ← byteAt reply (it + 1 + code.toNat)
          readDnsName fuel (it + 1 + code.toNat) (if following ≠ 0 then label ++ [dot] else label)
      else return (res, it + 1)

def skipQuestions (fuel : Nat) : Nat → Nat → Except Fault Nat
  | 0, it => .ok it
  | count + 1, it => do
      let (_, it) ← readDnsName reply fuel it []
      skipQuestions fuel count (it + 4)

/-- An address family. -/
inductive Family where
  | unspec
  | inet
  | inet6
  | other (number : Nat)
  deriving DecidableEq

structure DnsAddrBuf where
  name : Name
  family : Family
  addr : List UInt8
  deriving DecidableEq

structure LookupResult where
  buf : List DnsAddrBuf
  aliases : List Name
  canonName : Name
  deriving DecidableEq

def copyAddr (it length : Nat) : Except Fault (List UInt8) :=
  if it + length ≤ reply.length then
    if length ≤ addrSize then .ok ((reply.drop it).take length) else .error .overflow
  else .error .outside

def addressRecord (wanted recordFamily : Family) (name : Name) (it length : Nat)
    (result : LookupResult) : Except Fault (LookupResult × Nat) :=
  if wanted ≠ .unspec ∧ wanted ≠ recordFamily then .ok (result, it + length)
  else do
    let addr ← copyAddr reply it length
    return ({ result with buf := result.buf ++ [⟨name, recordFamily, addr⟩] }, it + length)

def nameAnswer (fuel : Nat) (family : Family) (it : Nat) (result : LookupResult) :
    Except Fault (LookupResult × Nat) := do
  let (dnsName, it) ← readDnsName reply fuel it []
  let rrType ← shortAt reply it
  let _rrClass ← shortAt reply (it + 2)
  let rrLen ← shortAt reply (it + 8)
  if rrType = recordA then addressRecord reply family .inet dnsName (it + 10) rrLen result
  else if rrType = recordAaaa then
    addressRecord reply family .inet6 dnsName (it + 10) rrLen result
  else if rrType = recordCname then
    let (canonName, it) ← readDnsName reply fuel (it + 10) []
    return ({ result with canonName, aliases := result.aliases ++ [dnsName] }, it)
  else return (result, it + 10 + rrLen)

def nameAnswers (fuel : Nat) (family : Family) :
    Nat → Nat → LookupResult → Except Fault LookupResult
  | 0, _, result => .ok result
  | count + 1, it, result => do
      let (result, it) ← nameAnswer reply fuel family it result
      nameAnswers fuel family count it result

/-- `lookup_name_dns` returns `-EAI_FAIL` or `-EAI_NONAME`, or goes on with the answers. -/
inductive NameOutcome where
  | fail
  | noname
  | answers (number : Nat) (result : LookupResult)
  deriving DecidableEq

def identification : Nat := 123

/-- One response in `lookup_name_dns`. -/
def nameResponse (fuel : Nat) (family : Family) (result : LookupResult) :
    Except Fault NameOutcome := do
  if (← shortAt reply 0) ≠ identification then return .fail
  if (← shortAt reply 2) % 16 = returnNxdomain then return .noname
  let it ← skipQuestions reply fuel (← shortAt reply 4) headerSize
  let number ← shortAt reply 6
  return .answers number (← nameAnswers reply fuel family number it result)

/-- `lookup_addr_dns` returns `-EAI_FAIL` or `-EAI_OVERFLOW`, or one with the stored name, or goes
on. -/
inductive AddrOutcome where
  | fail
  | tooLong
  | found (name : Name)
  | more (numAns : Nat)
  deriving DecidableEq

/-- The loop over the answers of `lookup_addr_dns`, which counts all of them at each one. -/
def addrAnswers (fuel nameSize noAns : Nat) : Nat → Nat → Nat → Except Fault AddrOutcome
  | 0, _, numAns => .ok (.more numAns)
  | count + 1, it, numAns => do
      let (_dnsName, it) ← readDnsName reply fuel it []
      let rrType ← shortAt reply it
      let _rrClass ← shortAt reply (it + 2)
      let rrLen ← shortAt reply (it + 8)
      if rrType = recordPtr then
        let (ptrName, _) ← readDnsName reply fuel (it + 10) []
        if ptrName.length ≥ nameSize then return .tooLong
        return .found ptrName
      else if numAns + noAns ≥ 1 then return .more (numAns + noAns)
      else addrAnswers fuel nameSize noAns count (it + 10 + rrLen) (numAns + noAns)

/-- One response in `lookup_addr_dns`. -/
def addrResponse (fuel nameSize numAns : Nat) : Except Fault AddrOutcome := do
  if (← shortAt reply 0) ≠ identification then return .fail
  let it ← skipQuestions reply fuel (← shortAt reply 4) headerSize
  let noAns ← shortAt reply 6
  addrAnswers reply fuel nameSize noAns noAns it numAns

end Mlibc.Dns
