import MySrc.TemplateHttp.UrlCode
import MySrc.TemplateHttp.Numbers
import Mathlib.Algebra.BigOperators.Group.List.Basic

/-!
# MySrc.LogingameServer.UrlSign

`loginwebgame_service::get_url_sign` of `logingame_server`: the query of a login with a
signature, which is the MD5 of nine of its fields and a key.

The fields are put behind each other without lengths or separators, and the address is
decoded first.  So what is hashed does not say where a field ends
(`securty_shifts_fields`): only of logins whose fields have the same lengths, but for one
of them, it says which is which (`securty_ne`).

The conversion from GBK and MD5 are parameters.
-/

namespace MySrc
namespace LogingameServer
namespace UrlSign

open Lib

/-! ## concatenations -/

section

variable {α : Type*} {xs ys : List (List α)}

/-- Where the lengths of two lists of words agree but for the `k`-th, and the words behind
each other are the same, they all agree. -/
theorem map_length_eq {k : Nat} (hsize : xs.length = ys.length)
    (hlen : (xs.map List.length).eraseIdx k = (ys.map List.length).eraseIdx k)
    (h : xs.flatten = ys.flatten) : xs.map List.length = ys.map List.length := by
  by_cases hk : k < xs.length
  · have hkx : k < (xs.map List.length).length := by simpa using hk
    have hky : k < (ys.map List.length).length := by simpa [← hsize] using hk
    have hx := List.CommMonoid.add_sum_eraseIdx hkx
    have hy := List.CommMonoid.add_sum_eraseIdx hky
    have hsum : (xs.map List.length).sum = (ys.map List.length).sum := by
      rw [← List.length_flatten, ← List.length_flatten, h]
    have hget : (xs.map List.length)[k] = (ys.map List.length)[k] := by
      rw [hlen] at hx
      omega
    rw [← List.insertIdx_eraseIdx_getElem hkx, hlen, hget, List.insertIdx_eraseIdx_getElem hky]
  · rw [List.eraseIdx_of_length_le (by simpa using hk),
      List.eraseIdx_of_length_le (by simpa [← hsize] using hk)] at hlen
    exact hlen

/-- **Words without separators.**  Lists of words whose lengths agree but for one word are
told apart by the words behind each other. -/
theorem eq_of_flatten_eq (hsize : xs.length = ys.length)
    (hlen : ∃ k, (xs.map List.length).eraseIdx k = (ys.map List.length).eraseIdx k)
    (h : xs.flatten = ys.flatten) : xs = ys := by
  obtain ⟨k, hk⟩ := hlen
  exact List.eq_iff_flatten_eq.mpr ⟨h, map_length_eq hsize hk h⟩

end

/-! ## the signature -/

/-- The parameters of a login that are signed. -/
structure Login where
  username : Str
  password : Str
  userid : Str
  copartnerid : Str
  gameid : Str
  sid : Str
  loginurl : Str
  serverid : Str
  clientip : Str
  deriving Repr, DecidableEq

/-- `SDUtility::format(int)` -/
def formatInt (i : Int) : Str := if i < 0 then 45 :: decimal i.natAbs else decimal i.natAbs

/-- `sprintf(tmp,"%2.2x",pdata[i])` -/
def sprintf02x (c : UInt8) : Str :=
  let digit (x : UInt8) : UInt8 := if x > 9 then x + 87 else x + 48
  [digit (c >>> 4), digit (c % 16)]

section

-- what `iconv` makes of a text and `MD5` of a string
variable (iconv md5 : Str → Str)

/-- `SDUtility::GBKToUTF8` -/
def gbkToUtf8 (sStr : Str) : Str := cStr (iconv (cStr sStr))

/-- `str_url_decoded` -/
def urlDecoded (loginurl : Str) : Except Fault Str :=
  SDUtility.urlDecode (gbkToUtf8 iconv loginurl)

/-- `securty`, which is hashed. -/
def securty (m_md5key : Str) (p : Login) : Except Fault Str := do
  let str_url_decoded ← urlDecoded iconv p.loginurl
  return p.username ++ p.password ++ p.userid ++ p.copartnerid ++ p.gameid ++ p.sid ++
    str_url_decoded ++ p.serverid ++ p.clientip ++ m_md5key

/-- `loginwebgame_service::get_url_sign` -/
def getUrlSign (m_md5key : Str) (p : Login) (clientid : Int)
    (comefrom comefrom1 comefrom2 comefrom3 tokenid : Str) : Except Fault Str := do
  let str_clientid := formatInt clientid
  let pdata ← md5 <$> securty iconv m_md5key p
  let md5sign := (pdata.take 16).flatMap sprintf02x
  return ascii "username=".toList ++ p.username ++ ascii "&pwd=".toList ++ p.password ++
    ascii "&userid=".toList ++ p.userid ++ ascii "&copartnerid=".toList ++ p.copartnerid ++
    ascii "&gameid=".toList ++ p.gameid ++ ascii "&sid=".toList ++ p.sid ++
    ascii "&loginurl=".toList ++ p.loginurl ++ ascii "&serverid=".toList ++ p.serverid ++
    ascii "&sign=".toList ++ md5sign ++ ascii "&clientip=".toList ++ p.clientip ++
    ascii "&clientid=".toList ++ str_clientid ++ ascii "&comefrom=".toList ++ comefrom ++
    ascii "&comefrom1=".toList ++ comefrom1 ++ ascii "&comefrom2=".toList ++ comefrom2 ++
    ascii "&comefrom3=".toList ++ comefrom3 ++ ascii "&tokenId=".toList ++ tokenid

/-! ## what is signed -/

/-- The nine fields as they are signed, with the address decoded. -/
def signedFields (p : Login) (str_url_decoded : Str) : List Str :=
  [p.username, p.password, p.userid, p.copartnerid, p.gameid, p.sid, str_url_decoded,
    p.serverid, p.clientip]

theorem securty_eq {m_md5key : Str} {p : Login} {url : Str}
    (hurl : urlDecoded iconv p.loginurl = .ok url) :
    securty iconv m_md5key p = .ok ((signedFields p url).flatten ++ m_md5key) := by
  rw [securty, hurl, ok_bind, pure_eq_ok]
  simp [signedFields]

/-- **What a signature binds.**  Logins whose signed fields differ, while the lengths of all
but one of them agree, are hashed from different strings. -/
theorem securty_ne (m_md5key : Str) {p q : Login} {url url' : Str}
    (hp : urlDecoded iconv p.loginurl = .ok url) (hq : urlDecoded iconv q.loginurl = .ok url')
    (hne : signedFields p url ≠ signedFields q url')
    (hlen : ∃ k, ((signedFields p url).map List.length).eraseIdx k =
      ((signedFields q url').map List.length).eraseIdx k) :
    securty iconv m_md5key p ≠ securty iconv m_md5key q := by
  intro h
  rw [securty_eq iconv hp, securty_eq iconv hq, Except.ok.injEq, List.append_cancel_right_eq] at h
  exact hne (eq_of_flatten_eq rfl hlen h)

end

/-- Two logins that differ in their servers. -/
theorem securty_ne_server :
    securty id (ascii "key".toList) ⟨ascii "player".toList, ascii "8C89".toList, [49], [50], [51],
        [52], ascii "http:%2F%2Fs1.niu".toList, [49], [53]⟩ ≠
      securty id (ascii "key".toList) ⟨ascii "player".toList, ascii "8C89".toList, [49], [50], [51],
        [52], ascii "http:%2F%2Fs1.niu".toList, [49, 50], [53]⟩ := by
  have hurl : urlDecoded id (ascii "http:%2F%2Fs1.niu".toList) =
      .ok (ascii "http://s1.niu".toList) := by decide
  exact securty_ne id (ascii "key".toList) hurl hurl (by decide) ⟨7, by decide⟩

/-- A character that moves from one field to the next is not seen, and neither is an escape
in the address. -/
theorem securty_shifts_fields :
    ¬ (Login.mk [97] [98, 99] [] [] [] [] [] [] [] ≠ Login.mk [97, 98] [99] [] [] [] [] [] [] [] →
      securty id [] ⟨[97], [98, 99], [], [], [], [], [], [], []⟩ ≠
        securty id [] ⟨[97, 98], [99], [], [], [], [], [], [], []⟩) ∧
    ¬ (Login.mk [] [] [] [] [] [] [47] [] [] ≠ Login.mk [] [] [] [] [] [] [37, 50, 70] [] [] →
      securty id [] ⟨[], [], [], [], [], [], [47], [], []⟩ ≠
        securty id [] ⟨[], [], [], [], [], [], [37, 50, 70], [], []⟩) := by
  decide

end UrlSign
end LogingameServer
end MySrc
