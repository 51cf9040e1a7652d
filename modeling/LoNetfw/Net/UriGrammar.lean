import LoNetfw.Net.Uri
import Mathlib.Tactic.Abel

namespace LoNetfw.Net

open Basis UriParser
open scoped Computability

/-!
# The grammar of `uri.rl`

The nonterminals of the grammar as languages, each rule with the source's words for it.  A plain
number in a rule is a character code, so `2 [0-4] digit` in `dec_octet` starts with the byte `2`,
not with the digit `2` (`byteTwo`).
-/

namespace UriGrammar

/-! ### Characters -/

def unreserved : Language UInt8 := unreservedChar.lang
def subDelims : Language UInt8 := subDelimChar.lang
def pctEncoded : Language UInt8 := percent.lang * xdigit.lang * xdigit.lang

/-- `r?`. -/
def opt (r : Language UInt8) : Language UInt8 := 1 + r

/-- `r+`. -/
def plus (r : Language UInt8) : Language UInt8 := r * r∗

def scheme : Language UInt8 := alpha.lang * schemeChar.lang∗

/-! ### The authority -/

def userinfo : Language UInt8 := (unreserved + pctEncoded + subDelims + colon.lang)∗

def decOctet : Language UInt8 :=
  digit.lang + (CharClass.range 49 57).lang * digit.lang + d1.lang * digit.lang ^ 2 +
    byteTwo.lang * d0to4.lang * digit.lang + d2.lang * d5.lang * d0to5.lang

def ipv4address : Language UInt8 :=
  decOctet * dot.lang * decOctet * dot.lang * decOctet * dot.lang * decOctet

def h16 : Language UInt8 := xdigit.lang + xdigit.lang ^ 2 + xdigit.lang ^ 3 + xdigit.lang ^ 4

def ls32 : Language UInt8 := h16 * colon.lang * h16 + ipv4address

/-- `"::"`. -/
def doubleColon : Language UInt8 := colon.lang * colon.lang

def ipv6address : Language UInt8 :=
  (h16 * colon.lang) ^ 6 * ls32 +
  doubleColon * (h16 * colon.lang) ^ 5 * ls32 +
  opt h16 * doubleColon * (h16 * colon.lang) ^ 4 * ls32 +
  opt ((h16 * colon.lang) ^ 1 * h16) * doubleColon * (h16 * colon.lang) ^ 3 * ls32 +
  opt ((h16 * colon.lang) ^ 2 * h16) * doubleColon * (h16 * colon.lang) ^ 2 * ls32 +
  opt ((h16 * colon.lang) ^ 3 * h16) * doubleColon * (h16 * colon.lang) ^ 1 * ls32 +
  opt ((h16 * colon.lang) ^ 4 * h16) * doubleColon * ls32 +
  opt ((h16 * colon.lang) ^ 5 * h16) * doubleColon * h16 +
  opt ((h16 * colon.lang) ^ 6 * h16) * doubleColon

def ipvFuture : Language UInt8 :=
  letterV.lang * plus xdigit.lang * dot.lang * plus (unreserved + subDelims + colon.lang)

def ipLiteral : Language UInt8 := lbracket.lang * (ipv6address + ipvFuture) * rbracket.lang

def regName : Language UInt8 := (unreserved + pctEncoded + subDelims)∗

def host : Language UInt8 := ipLiteral + ipv4address + regName

def port : Language UInt8 := digit.lang∗

/-! ### Path, query and fragment -/

/-- `pchar`, here the characters of `pchar` and the percent-encodings. -/
def pchars : Language UInt8 :=
  nonAscii.lang + unreserved + pctEncoded + subDelims + colon.lang + atSign.lang

def segment : Language UInt8 := pchars∗

def pathAbempty : Language UInt8 := opt (slash.lang * segment) * (slash.lang * segment)∗

def query : Language UInt8 := (pchars + slash.lang + questionMark.lang)∗

def fragment : Language UInt8 := (pchars + slash.lang + questionMark.lang)∗

/-! ### The classes of the table -/

/-- The class of the characters of names. -/
theorem lang_nameChar : nameChar.lang = unreserved + subDelims := CharClass.lang_or ..

/-- The class of the characters of user information. -/
theorem lang_userinfoChar : userinfoChar.lang = unreserved + subDelims + colon.lang := by
  rw [userinfoChar, CharClass.lang_or, lang_nameChar]

/-- The class of the characters of segments. -/
theorem lang_pchar : pchar.lang =
    nonAscii.lang + (unreserved + subDelims) + colon.lang + atSign.lang := by
  rw [pchar, CharClass.lang_or, CharClass.lang_or, CharClass.lang_or, lang_nameChar]

/-- The class of the characters of paths. -/
theorem lang_pathChar : pathChar.lang = pchar.lang + slash.lang := CharClass.lang_or ..

/-- The class of the characters of queries. -/
theorem lang_queryChar : queryChar.lang = pchar.lang + slash.lang + questionMark.lang := by
  rw [queryChar, CharClass.lang_or, lang_pathChar]

/-- A loop over the characters of a class and percent-encodings. -/
theorem userinfo_eq : userinfo = (userinfoChar.lang + pctEncoded)∗ := by
  rw [userinfo, lang_userinfoChar]
  congr 1
  abel

/-- A name as a repetition of one choice. -/
theorem regName_eq : regName = (nameChar.lang + pctEncoded)∗ := by
  rw [regName, lang_nameChar]
  congr 1
  abel

/-- The characters of a segment as one choice. -/
theorem pchars_eq : pchars = pchar.lang + pctEncoded := by
  rw [pchars, lang_pchar]
  abel

/-- A query as a repetition of one choice. -/
theorem query_eq : query = (queryChar.lang + pctEncoded)∗ := by
  rw [query, pchars_eq, lang_queryChar]
  congr 1
  abel

/-- A path is a chain of segments with a slash before each. -/
theorem pathAbempty_eq : pathAbempty = (slash.lang * segment)∗ := by
  rw [pathAbempty, opt, add_mul, one_mul]
  refine le_antisymm ?_ (le_add_of_nonneg_right bot_le)
  exact add_le le_rfl mul_kstar_le_kstar

end UriGrammar

end LoNetfw.Net
