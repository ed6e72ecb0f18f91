import Mathlib.Data.Nat.Notation
import Mathlib.Data.Int.Notation

/-!
# Property tree — JSON

`property_tree/json_parser/detail` for narrow characters: the parser of `parser.hpp` over a source of bytes,
the encoding of `narrow_encoding.hpp`, the `standard_callbacks` that build a tree, and the writer.

An iterator is what is left of the input behind it, so that the range between two iterators is the front of
the first.  A parser that throws gives `Failure.error`; a loop has as many rounds as there are bytes left, or
one more where a round can end without taking any, and `Failure.stuck` says that they were not enough or that
the end was dereferenced.
-/

namespace SourceLibs.PropertyTree

/-- `std::string`. -/
abbrev Str := List UInt8

/-! ### Trees -/

/-- `ptree`: the data and the children with their keys. -/
inductive Ptree
  | node (data : Str) (children : List (Str × Ptree))

namespace Ptree

/-- `ptree()`. -/
def empty : Ptree := node [] []

/-- `data()`. -/
def data : Ptree → Str
  | node data _ => data

/-- The children with their keys. -/
def children : Ptree → List (Str × Ptree)
  | node _ children => children

/-- `push_back`: a child at the end. -/
def pushBack (child : Str × Ptree) (pt : Ptree) : Ptree := node pt.data (pt.children ++ [child])

/-- `data() = s`. -/
def setData (f : Str → Str) (pt : Ptree) : Ptree := node (f pt.data) pt.children

/-- The node a pointer leads to: a pointer is the positions of the children on the way from the root. -/
def get? : List ℕ → Ptree → Option Ptree
  | [], pt => some pt
  | i :: p, pt => (pt.children[i]?).bind fun child => get? p child.2

/-- Change the node a pointer leads to. -/
def modify (f : Ptree → Ptree) : List ℕ → Ptree → Ptree
  | [], pt => f pt
  | i :: p, pt => node pt.data (pt.children.modify i fun child => (child.1, modify f p child.2))

end Ptree

/-! ### The encoding -/

namespace Encoding

def isNl (c : UInt8) : Bool := c == 0x0A
def isWs (c : UInt8) : Bool := c == 0x20 || c == 0x09 || c == 0x0A || c == 0x0D
def isMinus (c : UInt8) : Bool := c == 0x2D
def isPlusminus (c : UInt8) : Bool := c == 0x2B || c == 0x2D
def isDot (c : UInt8) : Bool := c == 0x2E
def isEE (c : UInt8) : Bool := c == 0x65 || c == 0x45
def is0 (c : UInt8) : Bool := c == 0x30
def isDigit (c : UInt8) : Bool := 0x30 ≤ c && c ≤ 0x39
def isDigit0 (c : UInt8) : Bool := 0x31 ≤ c && c ≤ 0x39
def isQuote (c : UInt8) : Bool := c == 0x22
def isBackslash (c : UInt8) : Bool := c == 0x5C
def isSlash (c : UInt8) : Bool := c == 0x2F
def isComma (c : UInt8) : Bool := c == 0x2C
def isOpenBracket (c : UInt8) : Bool := c == 0x5B
def isCloseBracket (c : UInt8) : Bool := c == 0x5D
def isColon (c : UInt8) : Bool := c == 0x3A
def isOpenBrace (c : UInt8) : Bool := c == 0x7B
def isCloseBrace (c : UInt8) : Bool := c == 0x7D
def isA (c : UInt8) : Bool := c == 0x61
def isB (c : UInt8) : Bool := c == 0x62
def isE (c : UInt8) : Bool := c == 0x65
def isF (c : UInt8) : Bool := c == 0x66
def isL (c : UInt8) : Bool := c == 0x6C
def isN (c : UInt8) : Bool := c == 0x6E
def isR (c : UInt8) : Bool := c == 0x72
def isS (c : UInt8) : Bool := c == 0x73
def isT (c : UInt8) : Bool := c == 0x74
def isU (c : UInt8) : Bool := c == 0x75

/-- The value of a hexadecimal digit, `-1` if it is none. -/
def decodeHexdigit (c : UInt8) : ℤ :=
  if 0x30 ≤ c && c ≤ 0x39 then c.toNat - 0x30
  else if 0x41 ≤ c && c ≤ 0x46 then c.toNat - 0x41 + 10
  else if 0x61 ≤ c && c ≤ 0x66 then c.toNat - 0x61 + 10
  else -1

/-- A byte that goes on a code point. -/
def isTrail (c : UInt8) : Bool := c &&& 0xC0 == 0x80

/-- How many bytes follow a first byte; `-1` if none can. -/
def trailTable (c : UInt8) : ℤ :=
  [-1, -1, -1, -1, -1, -1, -1, -1, 1, 1, 1, 1, 2, 2, 3, -1].getD ((c &&& 0x7F) >>> 3).toNat (-1)

/-- The last six bits, as a byte that goes on. -/
def trail (unmasked : ℕ) : UInt8 := UInt8.ofNat (0x80 ||| (unmasked &&& 0x3F))

/-- The code units `feed_codepoint` hands on. -/
def feedCodepoint (codepoint : ℕ) : Str :=
  if codepoint ≤ 0x7F then [UInt8.ofNat codepoint]
  else if codepoint ≤ 0x7FF then [UInt8.ofNat (0xC0 ||| (codepoint >>> 6)), trail codepoint]
  else if codepoint ≤ 0xFFFF then
    [UInt8.ofNat (0xE0 ||| (codepoint >>> 12)), trail (codepoint >>> 6), trail codepoint]
  else if codepoint ≤ 0x10FFFF then
    [UInt8.ofNat (0xF0 ||| (codepoint >>> 18)), trail (codepoint >>> 12), trail (codepoint >>> 6),
      trail codepoint]
  else []

/-- `skip_introduction`: a first byte `EF` is skipped with the two after it. -/
def skipIntroduction : Str → Str
  | [] => []
  | c :: cur => if c = 0xEF then cur.drop 2 else c :: cur

end Encoding

open Encoding

/-! ### The source -/

/-- What is left of the input, and where that is. -/
structure Source where
  filename : String
  cur : Str
  line : ℕ
  offset : ℕ

/-- `next` of a source, which counts lines and bytes. -/
def Source.next (src : Source) : Source :=
  match src.cur with
  | [] => src
  | c :: cur =>
    if isNl c then { src with cur := cur, line := src.line + 1, offset := 0 }
    else { src with cur := cur, offset := src.offset + 1 }

/-- What the parser calls back. -/
structure Callbacks (σ : Type) where
  onNull : σ → σ
  onBoolean : Bool → σ → σ
  onNumber : Str → σ → σ
  onBeginNumber : σ → σ
  onDigit : UInt8 → σ → σ
  onEndNumber : σ → σ
  onBeginString : σ → σ
  onCodeUnits : Str → σ → σ
  onCodeUnit : UInt8 → σ → σ
  onEndString : σ → σ
  onBeginArray : σ → σ
  onEndArray : σ → σ
  onBeginObject : σ → σ
  onEndObject : σ → σ

/-- How a parser ends that does not return. -/
inductive Failure
  | error (msg filename : String) (line : ℕ)
  | stuck

/-- `parser`, with the state of its callbacks. -/
structure State (σ : Type) where
  src : Source
  callbacks : σ

/-- A member of `parser`. -/
abbrev Parser (σ α : Type) := StateT (State σ) (Except Failure) α

/-- `std::iterator_traits<Iterator>::iterator_category`. -/
inductive Category
  | forward
  | input

/-- `make_iterator_range(first, last)`. -/
def range (first last : Str) : Str := first.take (first.length - last.length)

section
variable {σ α : Type}

/-- `parse_error`: the message, the file and the line. -/
def parseError (msg : String) : Parser σ α := fun s => .error (.error msg s.src.filename s.src.line)

/-- No such step in the source. -/
def stuck : Parser σ α := fun _ => .error .stuck

/-- Call a callback. -/
def call (f : σ → σ) : Parser σ Unit := fun s => .ok ((), { s with callbacks := f s.callbacks })

/-- `next`: one byte is passed. -/
def next : Parser σ Unit := fun s => .ok ((), { s with src := s.src.next })

/-- The iterator: what is left. -/
def rawCur : Parser σ Str := fun s => .ok (s.src.cur, s)

/-- `*cur` and `++cur`. -/
def rawNext : Parser σ UInt8 := fun s =>
  match s.src.cur with
  | [] => .error .stuck
  | c :: cur => .ok (c, { s with src := { s.src with cur := cur } })

/-- `have(p)`. -/
def haveUnit (p : UInt8 → Bool) : Parser σ Bool := do
  match ← rawCur with
  | [] => pure false
  | c :: _ =>
    if p c then
      next
      pure true
    else
      pure false

/-- `expect(p, msg)`. -/
def expect (p : UInt8 → Bool) (msg : String) : Parser σ Unit := do
  if ← haveUnit p then pure () else parseError msg

/-- `need_cur`: the next byte, or an error. -/
def needCur (msg : String) : Parser σ UInt8 := do
  match ← rawCur with
  | [] => parseError msg
  | c :: _ => pure c

/-- `while (have(p)) {}`. -/
def whileHave (p : UInt8 → Bool) : ℕ → Parser σ Unit
  | 0 => pure ()
  | fuel + 1 => do
    if ← haveUnit p then whileHave p fuel else pure ()

def skipWs : Parser σ Unit := do
  let cur ← rawCur
  whileHave isWs cur.length

/-- The loop over the trailing bytes of `transcode_codepoint`. -/
def transcodeTrail (transcodedFn : UInt8 → Parser σ Unit) : ℕ → Parser σ Unit
  | 0 => pure ()
  | trailing + 1 => do
    match ← rawCur with
    | [] => parseError "invalid code sequence"
    | c :: _ =>
      if isTrail c then
        transcodedFn c
        let _ ← rawNext
        transcodeTrail transcodedFn trailing
      else
        parseError "invalid code sequence"

/-- `transcode_codepoint`: the bytes of one code point, each to the function. -/
def transcodeCodepoint (transcodedFn : UInt8 → Parser σ Unit) : Parser σ Unit := do
  let c ← rawNext
  if c ≤ 0x7F then
    if c < 0x20 then parseError "invalid code sequence" else transcodedFn c
  else if trailTable c = -1 then
    parseError "invalid code sequence"
  else
    transcodedFn c
    transcodeTrail transcodedFn (trailTable c).toNat

def skipCodepoint : Parser σ Unit := transcodeCodepoint fun _ => pure ()

end

/-! ### The adapters -/

section
variable {σ : Type} (cb : Callbacks σ)

/-- `number_callback_adapter`, for forward iterators with the first one, for input iterators with whether
there was no digit yet. -/
inductive NumberAdapter
  | forward (first : Str)
  | input (first : Bool)

/-- Nothing is read of the number. -/
def NumberAdapter.new : Category → Str → NumberAdapter
  | .forward, cur => .forward cur
  | .input, _ => .input true

/-- `operator ()`. -/
def NumberAdapter.operator (c : UInt8) : NumberAdapter → Parser σ NumberAdapter
  | .forward first => pure (.forward first)
  | .input first => do
    if first then call cb.onBeginNumber else pure ()
    call (cb.onDigit c)
    pure (.input false)

/-- `finish`: what is left of a number is handed over. -/
def NumberAdapter.finish : NumberAdapter → Parser σ Unit
  | .forward first => do
    let cur ← rawCur
    call (cb.onNumber (range first cur))
  | .input _ => call cb.onEndNumber

/-- `string_callback_adapter`, for forward iterators with the beginning of the run. -/
inductive StringAdapter
  | forward (runBegin : Str)
  | input

/-- Nothing is read of the string. -/
def StringAdapter.new : Category → Str → StringAdapter
  | .forward, cur => .forward cur
  | .input, _ => .input

/-- `start_run`: a run of bytes begins here. -/
def StringAdapter.startRun : StringAdapter → Parser σ StringAdapter
  | .forward _ => do
    let cur ← rawCur
    pure (.forward cur)
  | .input => pure .input

/-- `finish_run`: the run is handed over. -/
def StringAdapter.finishRun : StringAdapter → Parser σ Unit
  | .forward runBegin => do
    let cur ← rawCur
    call (cb.onCodeUnits (range runBegin cur))
  | .input => pure ()

def StringAdapter.processCodepoint : StringAdapter → Parser σ Unit
  | .forward _ => skipCodepoint
  | .input => transcodeCodepoint fun c => call (cb.onCodeUnit c)

/-! ### The parser -/

/-- `parse_null`: whether it was there. -/
def parseNull : Parser σ Bool := do
  skipWs
  if ← haveUnit isN then
    expect isU "expected 'null'"
    expect isL "expected 'null'"
    expect isL "expected 'null'"
    call cb.onNull
    pure true
  else
    pure false

def parseBoolean : Parser σ Bool := do
  skipWs
  if ← haveUnit isT then
    expect isR "expected 'true'"
    expect isU "expected 'true'"
    expect isE "expected 'true'"
    call (cb.onBoolean true)
    pure true
  else if ← haveUnit isF then
    expect isA "expected 'false'"
    expect isL "expected 'false'"
    expect isS "expected 'false'"
    expect isE "expected 'false'"
    call (cb.onBoolean false)
    pure true
  else
    pure false

/-- `have(p, a)`, with the adapter after it. -/
def haveDigit (p : UInt8 → Bool) (a : NumberAdapter) : Parser σ (Bool × NumberAdapter) := do
  match ← rawCur with
  | [] => pure (false, a)
  | c :: _ =>
    if p c then
      let a ← a.operator cb c
      next
      pure (true, a)
    else
      pure (false, a)

/-- `expect(p, msg, a)`. -/
def expectDigit (p : UInt8 → Bool) (msg : String) (a : NumberAdapter) : Parser σ NumberAdapter := do
  let (found, a) ← haveDigit cb p a
  if found then pure a else parseError msg

/-- `while (have(&Encoding::is_digit, action)) {}`. -/
def digitLoop : ℕ → NumberAdapter → Parser σ NumberAdapter
  | 0, action => pure action
  | fuel + 1, action => do
    let (found, action) ← haveDigit cb isDigit action
    if found then digitLoop fuel action else pure action

/-- `parse_digits`: as many as there are. -/
def parseDigits (action : NumberAdapter) : Parser σ NumberAdapter := do
  let cur ← rawCur
  digitLoop cb cur.length action

def parseIntPart (action : NumberAdapter) : Parser σ (Bool × NumberAdapter) := do
  let (found, action) ← haveDigit cb isDigit0 action
  if found then
    let action ← parseDigits cb action
    pure (true, action)
  else
    pure (false, action)

/-- `parse_frac_part`, if there is a dot. -/
def parseFracPart (action : NumberAdapter) : Parser σ NumberAdapter := do
  let (found, action) ← haveDigit cb isDot action
  if found then
    let action ← expectDigit cb isDigit "need at least one digit after '.'" action
    parseDigits cb action
  else
    pure action

/-- `parse_exp_part`, if there is an `e`. -/
def parseExpPart (action : NumberAdapter) : Parser σ NumberAdapter := do
  let (found, action) ← haveDigit cb isEE action
  if found then
    let (_, action) ← haveDigit cb isPlusminus action
    let action ← expectDigit cb isDigit "need at least one digit in exponent" action
    parseDigits cb action
  else
    pure action

/-- `have(&Encoding::is_0, adapter) || parse_int_part(adapter)`. -/
def zeroOrIntPart (adapter : NumberAdapter) : Parser σ (Bool × NumberAdapter) := do
  let (zero, adapter) ← haveDigit cb is0 adapter
  if zero then pure (true, adapter) else parseIntPart cb adapter

def parseNumber (category : Category) : Parser σ Bool := do
  skipWs
  let cur ← rawCur
  let (started, adapter) ← haveDigit cb isMinus (.new category cur)
  let (int, adapter) ← zeroOrIntPart cb adapter
  if int then
    let adapter ← parseFracPart cb adapter
    let adapter ← parseExpPart cb adapter
    adapter.finish cb
    pure true
  else if started then
    parseError "expected digits after -"
  else
    pure false

/-- `feed`: a code point is handed over in UTF-8. -/
def feed (codepoint : ℕ) : Parser σ Unit :=
  call fun s => (feedCodepoint codepoint).foldl (fun s c => cb.onCodeUnit c s) s

/-- The loop of `parse_hex_quad`, for the digits still to come. -/
def hexLoop : ℕ → ℕ → Parser σ ℕ
  | 0, codepoint => pure codepoint
  | n + 1, codepoint => do
    let c ← needCur "invalid escape sequence"
    if decodeHexdigit c < 0 then
      parseError "invalid escape sequence"
    else
      next
      hexLoop n (codepoint * 16 + (decodeHexdigit c).toNat)

def parseHexQuad : Parser σ ℕ := hexLoop 4 0

def isSurrogateHigh (codepoint : ℕ) : Bool := codepoint &&& 0xFC00 == 0xD800
def isSurrogateLow (codepoint : ℕ) : Bool := codepoint &&& 0xFC00 == 0xDC00

/-- The code point of two surrogates. -/
def combineSurrogates (high low : ℕ) : ℕ := 0x010000 + (((high &&& 0x3FF) <<< 10) ||| (low &&& 0x3FF))

/-- `parse_codepoint_ref`: one quad, or two that are surrogates. -/
def parseCodepointRef : Parser σ Unit := do
  let codepoint ← parseHexQuad
  if isSurrogateLow codepoint then
    parseError "invalid codepoint, stray low surrogate"
  else if isSurrogateHigh codepoint then
    expect isBackslash "invalid codepoint, stray high surrogate"
    expect isU "expected codepoint reference after high surrogate"
    let low ← parseHexQuad
    if isSurrogateLow low then
      feed cb (combineSurrogates codepoint low)
    else
      parseError "expected low surrogate after high surrogate"
  else
    feed cb codepoint

/-- `parse_escape`, behind the backslash. -/
def parseEscape : Parser σ Unit := do
  if ← haveUnit isQuote then feed cb 0x22
  else if ← haveUnit isBackslash then feed cb 0x5C
  else if ← haveUnit isSlash then feed cb 0x2F
  else if ← haveUnit isB then feed cb 0x08
  else if ← haveUnit isF then feed cb 0x0C
  else if ← haveUnit isN then feed cb 0x0A
  else if ← haveUnit isR then feed cb 0x0D
  else if ← haveUnit isT then feed cb 0x09
  else if ← haveUnit isU then parseCodepointRef cb
  else parseError "invalid escape sequence"

/-- The loop of `parse_string`. -/
def stringLoop : ℕ → StringAdapter → Parser σ StringAdapter
  | 0, _ => stuck
  | fuel + 1, adapter => do
    let c ← needCur "unterminated string"
    if isQuote c then
      pure adapter
    else if isBackslash c then
      adapter.finishRun cb
      next
      parseEscape cb
      let adapter ← adapter.startRun
      stringLoop fuel adapter
    else
      adapter.processCodepoint cb
      stringLoop fuel adapter

def parseString (category : Category) : Parser σ Bool := do
  skipWs
  if ← haveUnit isQuote then
    call cb.onBeginString
    let cur ← rawCur
    let adapter ← stringLoop cb (cur.length + 1) (.new category cur)
    adapter.finishRun cb
    call cb.onEndString
    next
    pure true
  else
    pure false

/-- The loop of `parse_array`, where `parseValue` parses an item. -/
def itemLoop (parseValue : Parser σ Unit) : ℕ → Parser σ Unit
  | 0 => stuck
  | fuel + 1 => do
    parseValue
    skipWs
    if ← haveUnit isComma then itemLoop parseValue fuel else pure ()

/-- `parse_array`, of values. -/
def parseArray (parseValue : Parser σ Unit) : Parser σ Bool := do
  skipWs
  if ← haveUnit isOpenBracket then
    call cb.onBeginArray
    skipWs
    if ← haveUnit isCloseBracket then
      call cb.onEndArray
      pure true
    else
      let cur ← rawCur
      itemLoop parseValue (cur.length + 1)
      expect isCloseBracket "expected ']' or ','"
      call cb.onEndArray
      pure true
  else
    pure false

/-- The loop of `parse_object`. -/
def memberLoop (category : Category) (parseValue : Parser σ Unit) : ℕ → Parser σ Unit
  | 0 => stuck
  | fuel + 1 => do
    if ← parseString cb category then
      skipWs
      expect isColon "expected ':'"
      parseValue
      skipWs
      if ← haveUnit isComma then memberLoop category parseValue fuel else pure ()
    else
      parseError "expected key string"

/-- `parse_object`, of members. -/
def parseObject (category : Category) (parseValue : Parser σ Unit) : Parser σ Bool := do
  skipWs
  if ← haveUnit isOpenBrace then
    call cb.onBeginObject
    skipWs
    if ← haveUnit isCloseBrace then
      call cb.onEndObject
      pure true
    else
      let cur ← rawCur
      memberLoop cb category parseValue (cur.length + 1)
      expect isCloseBrace "expected '\x7d' or ','"
      call cb.onEndObject
      pure true
  else
    pure false

/-- `parse_value`, for values nested less than `depth` deep. -/
def parseValue (category : Category) : ℕ → Parser σ Unit
  | 0 => stuck
  | depth + 1 => do
    if ← parseObject cb category (parseValue category depth) then pure ()
    else if ← parseArray cb (parseValue category depth) then pure ()
    else if ← parseString cb category then pure ()
    else if ← parseBoolean cb then pure ()
    else if ← parseNull cb then pure ()
    else if ← parseNumber cb category then pure ()
    else parseError "expected value"

/-- `finish`: nothing but spaces is left. -/
def finish : Parser σ Unit := do
  skipWs
  match ← rawCur with
  | [] => pure ()
  | _ :: _ => parseError "garbage after data"

/-- `set_input`: behind a byte order mark, if there is one. -/
def setInput (filename : String) (r : Str) : Source := ⟨filename, skipIntroduction r, 1, 0⟩

/-- `read_json_internal` for iterators: the callbacks after it. -/
def readRange (category : Category) (r : Str) (callbacks : σ) (filename : String) : Except Failure σ :=
  let parse : Parser σ Unit := do
    parseValue cb category (r.length + 1)
    finish
  match parse ⟨setInput filename r, callbacks⟩ with
  | .ok (_, s) => .ok s.callbacks
  | .error e => .error e

end

/-! ### The standard callbacks -/

/-- `standard_callbacks::kind`. -/
inductive Kind
  | array
  | object
  | key
  | leaf
  deriving DecidableEq

/-- `standard_callbacks::layer`. -/
structure Layer where
  k : Kind
  t : List ℕ

/-- `standard_callbacks`, with the back of its stack in front. -/
structure StandardCallbacks where
  root : Ptree
  keyBuffer : Str
  stack : List Layer

namespace StandardCallbacks

/-- No tree yet. -/
def new : StandardCallbacks := ⟨.empty, [], []⟩

/-- A new node with key `key` behind the children of the node at `t`, as the topmost layer. -/
def pushChild (key : Str) (t : List ℕ) (stack : List Layer) (s : StandardCallbacks) : StandardCallbacks :=
  let root := s.root.modify (.pushBack (key, .empty)) t
  let size := ((root.get? t).getD .empty).children.length
  { s with root := root, stack := ⟨.leaf, t ++ [size - 1]⟩ :: stack }

/-- `new_tree` without its leaf layers. -/
def newTreeAt : List Layer → StandardCallbacks → StandardCallbacks
  | [], s => { s with stack := [⟨.leaf, []⟩] }
  | l :: stack, s =>
    match l.k with
    | .array => pushChild [] l.t (l :: stack) s
    | .object => pushChild s.keyBuffer l.t (⟨.object, l.t⟩ :: stack) s
    | .key => pushChild s.keyBuffer l.t (⟨.object, l.t⟩ :: stack) s
    | .leaf => newTreeAt stack s

/-- `new_tree`: where the next value goes. -/
def newTree (s : StandardCallbacks) : StandardCallbacks := newTreeAt s.stack s

/-- `new_value` over the layers of the stack. -/
def newValueAt : List Layer → StandardCallbacks → StandardCallbacks
  | [], s => newTreeAt [] s
  | l :: stack, s =>
    match l.k with
    | .leaf => newValueAt stack s
    | .object => { s with stack := ⟨.key, l.t⟩ :: stack, keyBuffer := [] }
    | .array => newTreeAt (l :: stack) s
    | .key => newTreeAt (l :: stack) s

/-- `new_value`: an empty one. -/
def newValue (s : StandardCallbacks) : StandardCallbacks := newValueAt s.stack s

/-- Change `current_value`. -/
def currentValue (f : Str → Str) (s : StandardCallbacks) : StandardCallbacks :=
  match s.stack with
  | [] => s
  | l :: _ =>
    match l.k with
    | .key => { s with keyBuffer := f s.keyBuffer }
    | _ => { s with root := s.root.modify (.setData f) l.t }

/-- `stack.back().k = k`. -/
def setKind (k : Kind) (s : StandardCallbacks) : StandardCallbacks :=
  match s.stack with
  | [] => s
  | l :: stack => { s with stack := ⟨k, l.t⟩ :: stack }

/-- `if (stack.back().k == leaf) stack.pop_back(); stack.pop_back();` -/
def endContainer (s : StandardCallbacks) : StandardCallbacks :=
  match s.stack with
  | [] => s
  | l :: stack => if l.k = .leaf then { s with stack := stack.drop 1 } else { s with stack := stack }

def nullValue : Str := [0x6E, 0x75, 0x6C, 0x6C]

def trueValue : Str := [0x74, 0x72, 0x75, 0x65]

def falseValue : Str := [0x66, 0x61, 0x6C, 0x73, 0x65]

end StandardCallbacks

open StandardCallbacks in
/-- The members of `standard_callbacks` that the parser calls.  `new_value()` refers to the value that is
current after it. -/
def standardCallbacks : Callbacks StandardCallbacks where
  onNull := fun s => s.newValue.currentValue fun _ => nullValue
  onBoolean := fun b s => s.newValue.currentValue fun _ => if b then trueValue else falseValue
  onNumber := fun codeUnits s => s.newValue.currentValue fun _ => codeUnits
  onBeginNumber := newValue
  onDigit := fun d => currentValue fun s => s ++ [d]
  onEndNumber := id
  onBeginString := newValue
  onCodeUnits := fun codeUnits => currentValue fun s => s ++ codeUnits
  onCodeUnit := fun c => currentValue fun s => s ++ [c]
  onEndString := id
  onBeginArray := fun s => s.newTree.setKind .array
  onEndArray := endContainer
  onBeginObject := fun s => s.newTree.setKind .object
  onEndObject := endContainer

/-- `read_json_internal(stream, pt, filename)`: what it throws, and `pt` after it.  A stream is read through
input iterators. -/
def readJsonInternal (category : Category) (stream : Str) (pt : Ptree) (filename : String) :
    Except Failure Unit × Ptree :=
  match readRange standardCallbacks category stream .new filename with
  | .ok callbacks => (.ok (), callbacks.root)
  | .error e => (.error e, pt)

/-! ### The writer -/

/-- `hexdigits[d]`. -/
def hexdigit (d : ℕ) : UInt8 :=
  [0x30, 0x31, 0x32, 0x33, 0x34, 0x35, 0x36, 0x37, 0x38, 0x39, 0x41, 0x42, 0x43, 0x44, 0x45, 0x46].getD d 0

/-- What `create_escapes` adds for a character. -/
def createEscape (c : UInt8) : Str :=
  if c == 0x20 || c == 0x21 || (0x23 ≤ c && c ≤ 0x2E) || (0x30 ≤ c && c ≤ 0x5B) ||
    (0x5D ≤ c && c ≤ 0xFF) then [c]
  else if c == 0x08 then [0x5C, 0x62]
  else if c == 0x0C then [0x5C, 0x66]
  else if c == 0x0A then [0x5C, 0x6E]
  else if c == 0x0D then [0x5C, 0x72]
  else if c == 0x09 then [0x5C, 0x74]
  else if c == 0x2F then [0x5C, 0x2F]
  else if c == 0x22 then [0x5C, 0x22]
  else if c == 0x5C then [0x5C, 0x5C]
  else
    let u := min c.toNat 0xFFFF
    let d1 := u / 4096
    let u := u - d1 * 4096
    let d2 := u / 256
    let u := u - d2 * 256
    let d3 := u / 16
    let u := u - d3 * 16
    let d4 := u
    [0x5C, 0x75, hexdigit d1, hexdigit d2, hexdigit d3, hexdigit d4]

def createEscapes (s : Str) : Str := s.flatMap createEscape

/-- `if (pretty) stream << s`. -/
def whenPretty (pretty : Bool) (s : Str) : Str := if pretty then s else []

/-- `Str(n, ' ')`. -/
def blanks (n : ℕ) : Str := List.replicate n 0x20

/-- `if (boost::next(it) != pt.end()) stream << ','`. -/
def separator {α : Type} (next : List α) : Str := if next.isEmpty then [] else [0x2C]

mutual

/-- What `write_json_helper` writes. -/
def writeJsonHelper (pretty : Bool) (indent : ℕ) : Ptree → Str
  | .node data children =>
    if 0 < indent && children.isEmpty then
      0x22 :: (createEscapes data ++ [0x22])
    else if 0 < indent && children.countP (fun child => child.1 == []) == children.length then
      0x5B :: (whenPretty pretty [0x0A] ++ (writeItems pretty indent children ++
        (whenPretty pretty (blanks (4 * indent)) ++ [0x5D])))
    else
      0x7B :: (whenPretty pretty [0x0A] ++ (writeMembers pretty indent children ++
        (whenPretty pretty (blanks (4 * indent)) ++ [0x7D])))

/-- The loop over the items of an array. -/
def writeItems (pretty : Bool) (indent : ℕ) : List (Str × Ptree) → Str
  | [] => []
  | (_, pt) :: next =>
    whenPretty pretty (blanks (4 * (indent + 1))) ++ (writeJsonHelper pretty (indent + 1) pt ++
      (separator next ++ (whenPretty pretty [0x0A] ++ writeItems pretty indent next)))

/-- The loop over the members of an object. -/
def writeMembers (pretty : Bool) (indent : ℕ) : List (Str × Ptree) → Str
  | [] => []
  | (key, pt) :: next =>
    whenPretty pretty (blanks (4 * (indent + 1))) ++ (0x22 :: (createEscapes key ++ (0x22 :: (0x3A ::
      (whenPretty pretty [0x20] ++ (writeJsonHelper pretty (indent + 1) pt ++
        (separator next ++ (whenPretty pretty [0x0A] ++ writeMembers pretty indent next))))))))

end

mutual

/-- `verify_json`: no data at the root, no node with both data and children, and no array with keys.
-/
def verifyJson (depth : ℕ) : Ptree → Bool
  | .node data children =>
    if depth == 0 && !data.isEmpty then false
    else if !data.isEmpty && !children.isEmpty then false
    else verifyChildren depth children

/-- The loop over the children. -/
def verifyChildren (depth : ℕ) : List (Str × Ptree) → Bool
  | [] => true
  | (_, pt) :: next => if verifyJson (depth + 1) pt then verifyChildren depth next else false

end

end SourceLibs.PropertyTree
