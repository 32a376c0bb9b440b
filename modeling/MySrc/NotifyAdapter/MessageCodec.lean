import MySrc.TemplateHttp.Split

/-!
# MySrc.NotifyAdapter.MessageCodec

`notify_adapter_v2/src/main/message_codec.cpp` with the functions of its
`common/mycommon.cpp` that it uses (`string2map` is the one that `template_http`
has too).  A message is a list of `name=value` items that `&` separates; names
and values are trimmed, items that are not a name and a value are skipped, and
of several items with one name the first counts.

The last part is about what the dispatcher makes of a message that it passes on
to the application server: it appends the identity of the connection as an item
named `tokenid`.  The first one counts here, too.
-/

namespace MySrc
namespace NotifyAdapter

open Lib

/-! ## names and paths -/

/-- `CONTENT_PATH_AUTH` -/
def contentPathAuth : Str :=
  ascii ['/', 'c', 'l', 'i', '/', 'n', 'o', 't', 'i', 'f', 'y', '/', 'a', 'd', 'a', 'p', 't',
    'e', 'r', '/', 'a', 'u', 't', 'h', '/', 'p', 'o', 's', 't']

/-- `CONTENT_PATH_GETKEY` -/
def contentPathGetkey : Str :=
  ascii ['/', 'c', 'l', 'i', '/', 'n', 'o', 't', 'i', 'f', 'y', '/', 'a', 'd', 'a', 'p', 't',
    'e', 'r', '/', 'r', 'a', 'n', 'd', 'o', 'm', 'k', 'e', 'y', '/', 'g', 'e', 't']

/-- `CONTENT_PATH_HEARTBEAT` -/
def contentPathHeartbeat : Str :=
  ascii ['/', 'c', 'l', 'i', '/', 'n', 'o', 't', 'i', 'f', 'y', '/', 'a', 'd', 'a', 'p', 't',
    'e', 'r', '/', 'h', 'e', 'a', 'r', 't', 'b', 'e', 'a', 't', '/', 'p', 'o', 's', 't']

/-- `CONTENT_PATH_HEARTBEAT_ACK` -/
def contentPathHeartbeatAck : Str :=
  ascii ['/', 's', 'v', 'r', '/', 'n', 'o', 't', 'i', 'f', 'y', '/', 'a', 'd', 'a', 'p', 't',
    'e', 'r', '/', 'h', 'e', 'a', 'r', 't', 'b', 'e', 'a', 't', '/', 'p', 'o', 's', 't']

/-- `CONTENT_PATH_OFFLINE` -/
def contentPathOffline : Str :=
  ascii ['/', 's', 'v', 'r', '/', 'n', 'o', 't', 'i', 'f', 'y', '/', 'a', 'd', 'a', 'p', 't',
    'e', 'r', '/', 'o', 'f', 'f', 'l', 'i', 'n', 'e', '/', 'p', 'o', 's', 't']

def pathName : Str := ascii ['p', 'a', 't', 'h']

def gameinternalnoName : Str :=
  ascii ['g', 'a', 'm', 'e', 'i', 'n', 't', 'e', 'r', 'n', 'a', 'l', 'n', 'o']

def signName : Str := ascii ['s', 'i', 'g', 'n']

def keyName : Str := ascii ['k', 'e', 'y']

def tokenidName : Str := ascii ['t', 'o', 'k', 'e', 'n', 'i', 'd']

/-! ## the codec -/

/-- `get_vaule` -/
def getVaule (key : Str) (map_get : StrMap) : Str := (map_get key).getD []

/-- `decode_content`, with `m_content_map` of a new codec. -/
def decodeContent (content : Str) : StrMap := string2map content .empty

/-- `get_content_path` -/
def getContentPath (m_content_map : StrMap) : Str := getVaule pathName m_content_map

/-- `content_auth_verify`, with `SDUtility::get_md5` and the key of the server. -/
def contentAuthVerify (get_md5 : Str → Str) (m_verify_key : Str) (m_content_map : StrMap) : Int :=
  let gameinternalno := getVaule gameinternalnoName m_content_map
  let sign := getVaule signName m_content_map
  let key := getVaule keyName m_content_map
  if sign = [] ∨ key = [] then -1
  else if get_md5 (gameinternalno ++ key ++ m_verify_key) ≠ sign then -1
  else 0

/-- `encode_heartbeat_rtn`: `map2string` of a map with one entry. -/
def encodeHeartbeatRtn : Str := pathName ++ [61] ++ contentPathHeartbeatAck

/-- **Signatures**: what `content_auth_verify` accepts. -/
theorem contentAuthVerify_eq_zero_iff {get_md5 : Str → Str} {m_verify_key : Str}
    {m_content_map : StrMap} :
    contentAuthVerify get_md5 m_verify_key m_content_map = 0 ↔
      getVaule signName m_content_map ≠ [] ∧ getVaule keyName m_content_map ≠ [] ∧
        getVaule signName m_content_map = get_md5 (getVaule gameinternalnoName m_content_map ++
          getVaule keyName m_content_map ++ m_verify_key) := by
  unfold contentAuthVerify
  simp only
  split_ifs with hempty hsign
  · simp only [false_iff]
    rcases hempty with h | h
    · exact fun hall => hall.1 h
    · exact fun hall => hall.2.1 h
  · simp only [false_iff]
    exact fun hall => hsign hall.2.2.symm
  · simp only [not_or] at hempty
    exact iff_of_true rfl ⟨hempty.1, hempty.2, (not_not.mp hsign).symm⟩

/-! ## items -/

/-- The values of the items with a name, in order. -/
def itemsNamed (key content : Str) : List Str :=
  (split 38 content).filterMap fun str_item =>
    match split 61 str_item with
    | [name, value] => if boostTrim name = key then some (boostTrim value) else none
    | _ => none

theorem itemsNamed_append (key a b : Str) :
    itemsNamed key (a ++ 38 :: b) = itemsNamed key a ++ itemsNamed key b := by
  rw [itemsNamed, split_append, List.filterMap_append]
  rfl

/-- **The first item counts**: what `string2map` finds under a name. -/
theorem string2map_apply (str_src : Str) (map_rtn : StrMap) (key : Str) :
    string2map str_src map_rtn key = (map_rtn key).or (itemsNamed key str_src).head? := by
  unfold string2map itemsNamed
  induction split 38 str_src generalizing map_rtn with
  | nil => simp
  | cons str_item items ih =>
      rw [List.foldl_cons, ih, List.filterMap_cons]
      -- an item that is not a name and a value is skipped
      rcases split 61 str_item with _ | ⟨name, _ | ⟨value, _ | ⟨third, more⟩⟩⟩
      · rfl
      · rfl
      · simp only
        by_cases hname : boostTrim name = key
        · cases hkey : map_rtn key <;>
            simp [StrMap.insertNew, StrMap.set, hname, hkey]
        · have hother : (map_rtn.insertNew (boostTrim name) (boostTrim value)) key =
              map_rtn key := by
            unfold StrMap.insertNew StrMap.set
            split
            · rfl
            · exact Function.update_of_ne (Ne.symm hname) _ _
          rw [hother, if_neg hname]
      · rfl

theorem getVaule_decodeContent (key content : Str) :
    getVaule key (decodeContent content) = (itemsNamed key content).head?.getD [] := by
  rw [getVaule, decodeContent, string2map_apply]
  rfl

/-! ## messages that are passed on -/

/-- What `adapter_cmd_doit` sends to the application server for a message. -/
def forwardContent (content tokenid : Str) : Str :=
  content ++ [38] ++ tokenidName ++ [61] ++ tokenid

/-- No blank at either end. -/
def Trimmed (s : Str) : Prop :=
  (∀ c ∈ s.head?, isspace c = false) ∧ ∀ c ∈ s.getLast?, isspace c = false

theorem boostTrim_of_trimmed {s : Str} (h : Trimmed s) : boostTrim s = s := by
  have hstays : ∀ l : Str, (∀ c ∈ l.head?, isspace c = false) → l.dropWhile isspace = l := by
    intro l hl
    cases l with
    | nil => rfl
    | cons c l => rw [List.dropWhile_cons_of_neg (by simp [hl c rfl])]
  rw [boostTrim, hstays s h.1, hstays s.reverse (by rw [List.head?_reverse]; exact h.2),
    List.reverse_reverse]

/-- The item that the dispatcher appends. -/
theorem itemsNamed_tokenid {identity : Str} (hamp : 38 ∉ identity) (heq : 61 ∉ identity)
    (htrimmed : Trimmed identity) :
    itemsNamed tokenidName (tokenidName ++ 61 :: identity) = [identity] := by
  have hname : 38 ∉ tokenidName ∧ 61 ∉ tokenidName ∧ boostTrim tokenidName = tokenidName := by
    decide
  have hitem : 38 ∉ tokenidName ++ 61 :: identity := by
    simp only [List.mem_append, List.mem_cons, not_or]
    exact ⟨hname.1, by decide, hamp⟩
  have hsplit : split 61 (tokenidName ++ 61 :: identity) = [tokenidName, identity] := by
    rw [split_append, split_of_notMem hname.2.1, split_of_notMem heq, List.singleton_append]
  rw [itemsNamed, split_of_notMem hitem, List.filterMap_cons, hsplit]
  simp only [hname.2.2, if_true, boostTrim_of_trimmed htrimmed, List.filterMap_nil]

/-- **Identities**: the application server reads the identity of the connection exactly
when the client has not put an item named `tokenid` into its content, or the first one it
has put there has the identity of the connection already. -/
theorem forwarded_tokenid_iff (content : Str) {identity : Str} (hamp : 38 ∉ identity)
    (heq : 61 ∉ identity) (htrimmed : Trimmed identity) :
    getVaule tokenidName (string2map (forwardContent content identity) .empty) = identity ↔
      ∀ value ∈ (itemsNamed tokenidName content).head?, value = identity := by
  have hforward : forwardContent content identity =
      content ++ 38 :: (tokenidName ++ 61 :: identity) := by
    simp [forwardContent]
  have hvalue := getVaule_decodeContent tokenidName (forwardContent content identity)
  rw [decodeContent, hforward, itemsNamed_append, itemsNamed_tokenid hamp heq htrimmed,
    List.head?_append] at hvalue
  rw [hforward, hvalue]
  cases (itemsNamed tokenidName content).head? with
  | none => simp
  | some value => simp

/-- The content `path=/x` and the identity `u1`. -/
theorem forwarded_tokenid_path :
    getVaule tokenidName (string2map
      (forwardContent (ascii ['p', 'a', 't', 'h', '=', '/', 'x']) (ascii ['u', '1'])) .empty) =
      ascii ['u', '1'] := by
  refine (forwarded_tokenid_iff _ (by decide) (by decide) ?_).mpr (by decide)
  constructor <;> decide +kernel

/-- The client `u1` sends `tokenid=u2` and is taken for `u2`. -/
theorem forwarded_tokenid_forged :
    getVaule tokenidName (string2map
      (forwardContent (tokenidName ++ ascii ['=', 'u', '2']) (ascii ['u', '1'])) .empty) =
      ascii ['u', '2'] := by
  decide

end NotifyAdapter
end MySrc
