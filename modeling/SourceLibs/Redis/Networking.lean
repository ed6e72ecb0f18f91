import Mathlib.Algebra.Order.Ring.Nat
import Mathlib.Data.Int.Notation

/-!
# Redis — reading queries

The query buffer of a client and the requests that are parsed from it: `readQueryFromClient`,
`processInputBuffer`, `processMultibulkBuffer`, `processInlineBuffer`, `resetClient`.

A buffer is a list of bytes, an `sds` is never shared.  Clients are not paused or blocked, and a command
that is complete is executed at once; it is noted down.  `sdssplitargs` is a parameter.
-/

namespace SourceLibs.RedisNetworking

/-- `PROTO_INLINE_MAX_SIZE`, `PROTO_MBULK_BIG_ARG`, `PROTO_MAX_QUERYBUF_LEN`. -/
def protoInlineMaxSize : ℕ := 1024 * 64
def protoMbulkBigArg : ℕ := 1024 * 32
def protoMaxQuerybufLen : ℕ := 1024 * 1024 * 1024

/-- `ULLONG_MAX`, `LLONG_MAX`. -/
def ullongMax : ℕ := 2 ^ 64 - 1
def llongMax : ℕ := 2 ^ 63 - 1

/-- The bytes `\r`, `\n`, `$`, `*`, `-`, `0` and `9`. -/
def cr : UInt8 := 13
def lf : UInt8 := 10
def dollar : UInt8 := 36
def star : UInt8 := 42
def minus : UInt8 := 45
def zero : UInt8 := 48
def nine : UInt8 := 57

/-- The protocol errors of a client. -/
inductive ProtocolError where
  | tooBigInline
  | unbalancedQuotes
  | tooBigMbulkCount
  | invalidMultibulkLength
  | tooBigBulkCount
  | expectedDollar (got : UInt8)
  | invalidBulkLength
deriving DecidableEq

/-- What `addReplyError` is given. -/
def ProtocolError.text : ProtocolError → String
  | .tooBigInline => "Protocol error: too big inline request"
  | .unbalancedQuotes => "Protocol error: unbalanced quotes in request"
  | .tooBigMbulkCount => "Protocol error: too big mbulk count string"
  | .invalidMultibulkLength => "Protocol error: invalid multibulk length"
  | .tooBigBulkCount => "Protocol error: too big bulk count string"
  | .expectedDollar got =>
    "Protocol error: expected '$', got '" ++ (Char.ofNat got.toNat).toString ++ "'"
  | .invalidBulkLength => "Protocol error: invalid bulk length"

/-- The kind of a request. -/
inductive ReqType where
  | unknown
  | inline
  | multibulk
deriving DecidableEq

/-- What parsing knows of a `client`.  A `bulklen` of -1 is none; `CLIENT_CLOSE_AFTER_REPLY` is a flag.
The replies are the protocol errors, the commands those that were executed. -/
structure Client where
  querybuf : List UInt8
  reqtype : ReqType
  multibulklen : ℕ
  bulklen : Option ℕ
  argv : List (List UInt8)
  closeAfterReply : Bool
  replies : List ProtocolError
  commands : List (List (List UInt8))

/-- `createClient`: nothing is read. -/
def createClient : Client := ⟨[], .unknown, 0, none, [], false, [], []⟩

/-- `strchr`: a byte before the first NUL. -/
def strchr (b : UInt8) : List UInt8 → Option ℕ
  | [] => none
  | a :: s => if a = b then some 0 else if a = 0 then none else (strchr b s).map (· + 1)

/-- The loop of `string2ll`, and what is left when it stops. -/
def digitsLoop : ℕ → List UInt8 → Option (ℕ × List UInt8)
  | v, [] => some (v, [])
  | v, b :: p =>
    if zero ≤ b ∧ b ≤ nine then
      if v > ullongMax / 10 then none
      else if v * 10 > ullongMax - (b.toNat - zero.toNat) then none
      else digitsLoop (v * 10 + (b.toNat - zero.toNat)) p
    else some (v, b :: p)

/-- `string2ll` after the sign. -/
def string2llAbs (negative : Bool) : List UInt8 → Option ℤ
  | [] => none
  | b :: p =>
    if zero + 1 ≤ b ∧ b ≤ nine then
      match digitsLoop (b.toNat - zero.toNat) p with
      | none => none
      | some (v, rest) =>
        if rest ≠ [] then none
        else if negative then if v > llongMax + 1 then none else some (-v)
        else if v > llongMax then none else some v
    else none

/-- `string2ll`, of what is between the sign and the end. -/
def string2ll : List UInt8 → Option ℤ
  | [] => none
  | b :: p =>
    if b = zero ∧ p = [] then some 0
    else if b = minus then string2llAbs true p
    else string2llAbs false (b :: p)

/-- `addReplyError` and `setProtocolError`. -/
def setProtocolError (c : Client) (e : ProtocolError) (pos : ℕ) : Client :=
  { c with
    replies := c.replies ++ [e]
    closeAfterReply := true
    querybuf := c.querybuf.drop pos }

/-- How `processMultibulkBuffer` reads a length line. -/
inductive LengthLine where
  | wait
  | error (e : ProtocolError) (pos : ℕ)
  | length (ll : ℤ) (pos : ℕ)

/-- The bulk length at `pos`. -/
def readBulkLength (querybuf : List UInt8) (pos : ℕ) : LengthLine :=
  match strchr cr (querybuf.drop pos) with
  | none =>
    if querybuf.length > protoInlineMaxSize then .error .tooBigBulkCount 0 else .wait
  | some i =>
    if pos + i + 2 > querybuf.length then .wait
    else if querybuf.getD pos 0 ≠ dollar then
      .error (.expectedDollar (querybuf.getD pos 0)) pos
    else
      match string2ll ((querybuf.drop (pos + 1)).take (i - 1)) with
      | none => .error .invalidBulkLength pos
      | some ll =>
        if ll < 0 ∨ ll > 512 * 1024 * 1024 then .error .invalidBulkLength pos
        else .length ll (pos + i + 2)

/-- The bulk argument at `pos`, if all of it is there.  A buffer that holds nothing else becomes the
argument, and a new one takes its place. -/
def readBulk (c : Client) (pos bulklen : ℕ) : Option (Client × ℕ) :=
  if c.querybuf.length - pos < bulklen + 2 then none
  else if pos = 0 ∧ bulklen ≥ protoMbulkBigArg ∧ c.querybuf.length = bulklen + 2 then
    some ({ c with
            argv := c.argv ++ [c.querybuf.take (c.querybuf.length - 2)]
            querybuf := []
            bulklen := none
            multibulklen := c.multibulklen - 1 }, 0)
  else
    some ({ c with
            argv := c.argv ++ [(c.querybuf.drop pos).take bulklen]
            bulklen := none
            multibulklen := c.multibulklen - 1 }, pos + bulklen + 2)

/-- The loop of `processMultibulkBuffer`; there is no position if it returns after an error. -/
def readBulks : ℕ → Client → ℕ → Client × Option ℕ
  | 0, c, pos => (c, some pos)
  | n + 1, c, pos =>
    match c.bulklen with
    | some bulklen =>
      match readBulk c pos bulklen with
      | none => (c, some pos)
      | some (c, pos) => readBulks n c pos
    | none =>
      match readBulkLength c.querybuf pos with
      | .wait => (c, some pos)
      | .error e pos => (setProtocolError c e pos, none)
      | .length ll pos =>
        let (c, pos) :=
          if ll ≥ protoMbulkBigArg then ({ c with querybuf := c.querybuf.drop pos }, 0)
          else (c, pos)
        let c := { c with bulklen := some ll.toNat }
        match readBulk c pos ll.toNat with
        | none => (c, some pos)
        | some (c, pos) => readBulks n c pos

/-- The arguments from `pos` on, and the end of `processMultibulkBuffer`. -/
def readArguments (c : Client) (pos : ℕ) : Client × Bool :=
  match readBulks c.multibulklen c pos with
  | (c, none) => (c, false)
  | (c, some pos) => ({ c with querybuf := c.querybuf.drop pos }, c.multibulklen == 0)

/-- `processMultibulkBuffer`, unless an assertion fails. -/
def processMultibulkBuffer (c : Client) : Option (Client × Bool) :=
  if c.multibulklen = 0 then
    if c.argv ≠ [] then none
    else
      match strchr cr c.querybuf with
      | none =>
        if c.querybuf.length > protoInlineMaxSize then
          some (setProtocolError c .tooBigMbulkCount 0, false)
        else some (c, false)
      | some newline =>
        if newline + 2 > c.querybuf.length then some (c, false)
        else if c.querybuf.head? ≠ some star then none
        else
          match string2ll ((c.querybuf.drop 1).take (newline - 1)) with
          | none => some (setProtocolError c .invalidMultibulkLength 0, false)
          | some ll =>
            if ll > 1024 * 1024 then
              some (setProtocolError c .invalidMultibulkLength 0, false)
            else if ll ≤ 0 then
              some ({ c with querybuf := c.querybuf.drop (newline + 2) }, true)
            else some (readArguments { c with multibulklen := ll.toNat } (newline + 2))
  else some (readArguments c 0)

variable (sdssplitargs : List UInt8 → Option (List (List UInt8)))

/-- `processInlineBuffer`: the arguments of a line. -/
def processInlineBuffer (c : Client) : Client × Bool :=
  match strchr lf c.querybuf with
  | none =>
    if c.querybuf.length > protoInlineMaxSize then (setProtocolError c .tooBigInline 0, false)
    else (c, false)
  | some newline =>
    let querylen :=
      if newline ≠ 0 ∧ c.querybuf.getD (newline - 1) 0 = cr then newline - 1 else newline
    match sdssplitargs (c.querybuf.take querylen) with
    | none => (setProtocolError c .unbalancedQuotes 0, false)
    | some argv =>
      ({ c with
         querybuf := c.querybuf.drop (querylen + 2)
         argv := argv.filter (· ≠ []) }, true)

/-- `resetClient`: ready for the next command. -/
def resetClient (c : Client) : Client :=
  { c with
    argv := []
    reqtype := .unknown
    multibulklen := 0
    bulklen := none }

/-- A command that is complete is executed, unless there are no arguments; the client is reset. -/
def finishCommand (c : Client) : Client :=
  if c.argv = [] then resetClient c
  else resetClient { c with commands := c.commands ++ [c.argv] }

/-- The loop of `processInputBuffer`; there are at most as many rounds as bytes. -/
def inputLoop : ℕ → Client → Option Client
  | 0, _ => none
  | fuel + 1, c =>
    if c.querybuf = [] then some c
    else if c.closeAfterReply then some c
    else
      let c :=
        if c.reqtype = .unknown then
          { c with reqtype := if c.querybuf.head? = some star then .multibulk else .inline }
        else c
      match c.reqtype with
      | .unknown => none
      | .inline =>
        match processInlineBuffer sdssplitargs c with
        | (c, false) => some c
        | (c, true) => inputLoop fuel (finishCommand c)
      | .multibulk =>
        match processMultibulkBuffer c with
        | none => none
        | some (c, false) => some c
        | some (c, true) => inputLoop fuel (finishCommand c)

/-- `processInputBuffer`: as many commands as the buffer has. -/
def processInputBuffer (c : Client) : Option Client :=
  inputLoop sdssplitargs (c.querybuf.length + 1) c

/-- Why there is no client any more. -/
inductive Stop where
  | freed
  | assertion

/-- What `readQueryFromClient` does once `read` has given it `bytes`; a buffer that is too long closes
the client.  The source asks for at most 16384 bytes, and for no more than is missing of a large
argument; here there may be any number. -/
def queryRead (c : Client) (bytes : List UInt8) : Except Stop Client :=
  let c := { c with querybuf := c.querybuf ++ bytes }
  if c.querybuf.length > protoMaxQuerybufLen then .error .freed
  else
    match processInputBuffer sdssplitargs c with
    | none => .error .assertion
    | some c => .ok c

/-- Reads in a row, of any sizes. -/
def readQueries (c : Client) : List (List UInt8) → Except Stop Client
  | [] => .ok c
  | bytes :: reads =>
    match queryRead sdssplitargs c bytes with
    | .error stop => .error stop
    | .ok c => readQueries c reads

end SourceLibs.RedisNetworking
