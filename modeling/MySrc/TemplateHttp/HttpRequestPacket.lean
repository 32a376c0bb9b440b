import MySrc.Lib.Text
import MySrc.Lib.Word
import MySrc.CxxUtils.ConfigFile

/-!
# MySrc.TemplateHttp.HttpRequestPacket

`HttpRequestPacket` of `template_http/src/http/HttpRequestPacket.{h,cpp}`: the
parser of HTTP requests, with the helpers it takes from `SDUtility.cpp` and
`mycommon.cpp`.

Strings are lists of bytes.  A position found by `find` is represented by the
texts before and behind it, and the cursor of a scanning loop by the rest of
the text from it.  Indexing a string or a `strdup`ed block outside its bounds
is a fault.

The conversion of the path by `iconv` is a parameter, `utf8ToGbk`, and so is
what `getpeername` and `inet_ntop` say about a descriptor, `peerName`.
-/

namespace MySrc

open Lib

/-- The bytes of a text. -/
def ascii (s : List Char) : Str := s.map fun c => UInt8.ofNat c.toNat

def lineBreak : Str := [13, 10]

/-! ## maps -/

/-- `std::map<string, string>` -/
abbrev StrMap := Str → Option Str

/-- `m[key] = value` -/
def StrMap.set (m : StrMap) (key value : Str) : StrMap := Function.update m key (some value)

/-- `m.insert(make_pair(key, value))`, which keeps an entry that is there. -/
def StrMap.insertNew (m : StrMap) (key value : Str) : StrMap :=
  if (m key).isSome then m else m.set key value

def StrMap.empty : StrMap := fun _ => none

/-! ## strings -/

/-- `UpperCase`, with `toupper` in the C locale. -/
def upperCase (sText : Str) : Str := sText.map fun c => if 97 ≤ c ∧ c ≤ 122 then c - 32 else c

/-- What `TrimLeft` and `TrimRight` skip. -/
def isBlank (c : UInt8) : Bool := c = 32 ∨ c = 9

/-- `TrimLeft`: the terminating NUL stops the loop. -/
def trimLeft (str : Str) : Str := str.dropWhile isBlank

/-- `TrimRight`: nothing stops the loop in front of the string. -/
def trimRight (str : Str) : Except Fault Str :=
  match str.reverse.dropWhile isBlank with
  | [] => .error .outOfBounds
  | last :: front => .ok (last :: front).reverse

/-- `Trim` -/
def trim (str : Str) : Except Fault Str := trimRight (trimLeft str)

/-- `boost::trim` -/
def boostTrim (str : Str) : Str := ((str.dropWhile isspace).reverse.dropWhile isspace).reverse

/-- `boost::split` at one character. -/
def split (c : UInt8) (s : Str) : List Str := (pieces [c] s).1 ++ [(pieces [c] s).2]

/-- `SDUtility::atouint32` -/
def atouint32 (str : Str) : Nat :=
  (str.takeWhile isdigit).foldl (fun value c => (10 * value + (c.toNat - 48)) % 2 ^ 32) 0

/-! ## escapes -/

/-- One digit of `x2c`, as a `char`. -/
def hexDigit (c : UInt8) : UInt8 :=
  -- `char` is signed: bytes from 128 on are below 'A'
  if 65 ≤ c ∧ c < 128 then (c &&& 0xdf) - 65 + 10 else c - 48

/-- `x2c` -/
def x2c (hi lo : UInt8) : UInt8 := hexDigit hi * 16 + hexDigit lo

/-- `url[i]` in a block of memory. -/
def charAt (url : List UInt8) (i : Nat) : Except Fault UInt8 :=
  match url[i]? with
  | some c => .ok c
  | none => .error .outOfBounds

/-- The loop of `unescape_url`, which works in place: `y` reads, `x` writes.
Every turn moves `y` on, so `fuel` cannot run out before the block does. -/
def unescapeLoop : Nat → List UInt8 → Nat → Nat → Except Fault (List UInt8)
  | 0, _, _, _ => .error .diverge
  | fuel + 1, url, x, y => do
      let c ← charAt url y
      if c = 0 then
        return url.set x 0
      else if c = 37 then do
        -- '%': both digits are read, whatever stands behind it
        let hi ← charAt url (y + 1)
        let lo ← charAt url (y + 2)
        unescapeLoop fuel (url.set x (x2c hi lo)) (x + 1) (y + 3)
      else if c = 43 then
        unescapeLoop fuel (url.set x 32) (x + 1) (y + 1)
      else
        unescapeLoop fuel (url.set x c) (x + 1) (y + 1)

/-- `unescape_url` on a block. -/
def unescapeUrl (url : List UInt8) : Except Fault (List UInt8) :=
  unescapeLoop (url.length + 1) url 0 0

/-- `Unescape_url`: unescape the `strdup` of a string. -/
def unescapeUrlStr (url : Str) : Except Fault Str := do
  let pszUrl ← unescapeUrl (cStr url ++ [0])
  return cStr pszUrl

example : unescapeUrlStr (ascii ['a', '%', '4', '2', '+', 'c']) =
    .ok (ascii ['a', 'B', ' ', 'c']) := by
  decide +kernel

/-! ## the packet -/

structure HttpRequestPacket where
  m_str_GetRequest : Str
  m_str_cmdpath : Str
  mapParam : StrMap
  mapCookie : StrMap
  mapHead : StrMap
  m_clientfd : Nat
  m_client_tag : UInt64
  m_str_clientip : Str

/-- `HttpRequestPacket::HttpRequestPacket` -/
def HttpRequestPacket.init : HttpRequestPacket where
  m_str_GetRequest := []
  m_str_cmdpath := []
  mapParam := .empty
  mapCookie := .empty
  mapHead := .empty
  m_clientfd := 0
  m_client_tag := 0
  m_str_clientip := []

/-- The body of the loop of `ParseHead`. -/
def parseHeadLine (mapHead : StrMap) (sLine : Str) : Except Fault StrMap :=
  match breakOn (ascii [':']) sLine with
  | none => .ok mapHead
  | some (sDomain, sValue) => do
      let sDomain ← trim sDomain
      return mapHead.set (upperCase sDomain) sValue

/-- `ParseHead`: every line of the text that `\r\n` ends. -/
def parseHead (mapHead : StrMap) (sHttpHead : Str) : Except Fault StrMap :=
  (pieces lineBreak sHttpHead).1.foldlM parseHeadLine mapHead

/-- A name and a value in `ParseParam` and `ParseCookie`. -/
def parsePair (m : StrMap) (sParam : Str) : Except Fault StrMap :=
  match breakOn (ascii ['=']) sParam with
  | none => .ok m
  | some (name, sValue) => do
      let sValue ← unescapeUrlStr sValue
      return m.set name sValue

/-- `ParseCookie` -/
def parseCookie (mapCookie : StrMap) (sCookie : Str) : Except Fault StrMap :=
  if sCookie = [] then .ok mapCookie
  else (split 59 (sCookie.filter (· ≠ 32))).foldlM parsePair mapCookie

/-- `string2map` -/
def string2map (str_src : Str) (map_rtn : StrMap) : StrMap :=
  (split 38 str_src).foldl (fun map_rtn str_item =>
    match split 61 str_item with
    | [key, value] => map_rtn.insertNew (boostTrim key) (boostTrim value)
    | _ => map_rtn) map_rtn

/-- `GetLine` -/
def getLine (mapHead : StrMap) (sWhichDomain : Str) : Str :=
  (mapHead (upperCase sWhichDomain)).getD []

/-- The request between the first `/` of the request line and the next space. -/
def requestOf (sRequestLine : Str) : Option Str := do
  let (_, behind) ← breakOn (ascii ['/']) sRequestLine
  let (request, _) ← breakOn (ascii [' ']) (ascii ['/'] ++ behind)
  return request

/-- `sHttpHead.size() < intlength`, where the `int` is converted to a `size_t`. -/
def sizeLt (size : Nat) (intlength : Int) : Bool := (size : Int) < intlength % 2 ^ 64

def cookieName : Str := ascii ['C', 'O', 'O', 'K', 'I', 'E']

def contentLength : Str :=
  ascii ['C', 'O', 'N', 'T', 'E', 'N', 'T', '-', 'L', 'E', 'N', 'G', 'T', 'H']

def realIp : Str := ascii ['X', '-', 'R', 'E', 'A', 'L', '-', 'I', 'P']

section

variable (utf8ToGbk : Str → Str)

/-- `ParseParam` -/
def parseParam (packet : HttpRequestPacket) (sHttpRequest : Str) :
    Except Fault HttpRequestPacket :=
  match breakOn (ascii ['?']) sHttpRequest with
  | none => .ok { packet with mapParam := .empty, m_str_cmdpath := sHttpRequest }
  | some (cmdpath, params) => do
      let cmdpath ← unescapeUrlStr cmdpath
      let mapParam ← (split 38 params).foldlM parsePair .empty
      return { packet with mapParam, m_str_cmdpath := utf8ToGbk cmdpath }

/-- What `decode_get` and `decode_post` begin with: the request line, and the
headers.  `none` when the line is not a request. -/
def decodeHead (packet : HttpRequestPacket) (sHttpHead : Str) :
    Except Fault (Option HttpRequestPacket) :=
  match breakOn lineBreak sHttpHead with
  | none => .ok none
  | some (sRequestLine, _) =>
      match requestOf sRequestLine with
      | none => .ok none
      | some request => do
          let packet ← parseParam utf8ToGbk { packet with m_str_GetRequest := request } request
          let mapHead ← parseHead packet.mapHead sHttpHead
          return some { packet with mapHead }

/-- `decode_get` -/
def decodeGet (packet : HttpRequestPacket) (sHttpHead : Str) :
    Except Fault (Int × HttpRequestPacket) := do
  match ← decodeHead utf8ToGbk packet sHttpHead with
  | none => return (-1, packet)
  | some packet =>
      let sCookie := getLine packet.mapHead cookieName
      let mapCookie ← parseCookie packet.mapCookie sCookie
      return (0, { packet with mapCookie })

/-- `decode_post` -/
def decodePost (packet : HttpRequestPacket) (sHttpHead : Str) :
    Except Fault (Int × HttpRequestPacket) := do
  match ← decodeHead utf8ToGbk packet sHttpHead with
  | none => return (-1, packet)
  | some packet =>
      match packet.mapHead contentLength with
      | none => return (-1, packet)
      | some str_length =>
          let intlength := i32 (atouint32 (boostTrim str_length))
          if sizeLt sHttpHead.length intlength then return (-1, packet)
          else
            let str_params := sHttpHead.drop (sHttpHead.length - intlength.toNat)
            return (0, { packet with mapParam := string2map str_params packet.mapParam })

/-- `Decode` -/
def decode (packet : HttpRequestPacket) (sHttpHead : Str) :
    Except Fault (Int × HttpRequestPacket) :=
  match breakOn lineBreak sHttpHead with
  | none => .ok (-2, packet)
  | some (sRequestLine, _) =>
      if (breakOn (ascii ['G', 'E', 'T']) sRequestLine).isSome then
        decodeGet utf8ToGbk packet sHttpHead
      else if (breakOn (ascii ['P', 'O', 'S', 'T']) sRequestLine).isSome then
        decodePost utf8ToGbk packet sHttpHead
      else .ok (-1, packet)

end

/-- `generate_client_ip` -/
def generateClientIp (peerName : Nat → Option Str) (packet : HttpRequestPacket) :
    HttpRequestPacket :=
  match packet.mapHead realIp with
  | some ip => { packet with m_str_clientip := boostTrim ip }
  | none =>
      if packet.m_str_clientip = [] then
        match peerName packet.m_clientfd with
        | none =>
            { packet with m_str_clientip := ascii ['1', '2', '7', '.', '0', '.', '0', '.', '1'] }
        | some peerip => { packet with m_str_clientip := peerip }
      else packet

end MySrc
