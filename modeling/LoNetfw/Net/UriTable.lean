import LoNetfw.Basis.Recognizer

namespace LoNetfw.Net

open Basis

/-!
# The machine of `uri_parser` — the transition table generated from `uri.rl`

`Uri::create` runs a deterministic machine that the generator has written out as a `switch` over
the state `cs`, with one `case` for each state and one label `tr`*k* for each jump that does
something on the way.  This module is that table:

* the classes of bytes the cases distinguish (a `char` is signed, so the bytes from 128 on are
  the ones a case leaves to its `default`);
* the actions of the grammar and the labels `tr`*k* with the actions they run;
* the rows of all states, and the actions at the end of the input.

State `0` is the error state, the states from `451` on are final.
-/

namespace UriParser

/-! ### Classes of bytes -/

def digit : CharClass := .range 48 57
def alpha : CharClass := .range 65 90 ||| .range 97 122
def nonAscii : CharClass := .range 128 255
def colon : CharClass := .single 58
def dot : CharClass := .single 46
def slash : CharClass := .single 47
def questionMark : CharClass := .single 63
def hashSign : CharClass := .single 35
def atSign : CharClass := .single 64
def percent : CharClass := .single 37
def lbracket : CharClass := .single 91
def rbracket : CharClass := .single 93
def byteTwo : CharClass := .single 2
def letterV : CharClass := .single 118
def unreservedChar : CharClass := alpha ||| digit ||| .single 45 ||| dot ||| .single 95 ||| .single 126
def subDelimChar : CharClass := .single 33 ||| .single 36 ||| .range 38 44 ||| .single 59 ||| .single 61
def nameChar : CharClass := unreservedChar ||| subDelimChar
def userinfoChar : CharClass := nameChar ||| colon
def pchar : CharClass := nonAscii ||| nameChar ||| colon ||| atSign
def pathChar : CharClass := pchar ||| slash
def queryChar : CharClass := pathChar ||| questionMark
def schemeChar : CharClass := alpha ||| digit ||| .single 43 ||| .single 45 ||| dot
def letterAF : CharClass := .range 65 70 ||| .range 97 102
def xdigit : CharClass := digit ||| letterAF
def xdigitFrom6 : CharClass := .range 54 57 ||| letterAF
def d0 : CharClass := .single 48
def d1 : CharClass := .single 49
def d2 : CharClass := .single 50
def d5 : CharClass := .single 53
def d3to9 : CharClass := .range 51 57
def d0to4 : CharClass := .range 48 52
def d0to5 : CharClass := .range 48 53
def digitNo5 : CharClass := d0to4 ||| .range 54 57
def nameNoDigit : CharClass := .diff nameChar digit
def nameNoDot : CharClass := .diff nameChar dot
def nameNoDigitDot : CharClass := .diff nameChar (digit ||| dot)
def nameNoDotFrom6 : CharClass := .diff nameChar (d0to5 ||| dot)
def userinfoNoDigit : CharClass := .diff userinfoChar digit
def pcharNoColon : CharClass := .diff pchar colon
def pcharNoColonAlpha : CharClass := .diff pchar (alpha ||| colon)
def pcharNoScheme : CharClass := .diff pchar (schemeChar ||| colon)

/-! ### Actions and jumps -/

/-- The actions of `uri.rl`.  `marku` and `markh` both set `mark` to the current character. -/
inductive Action where
  | mark
  | saveScheme
  | savePort
  | saveUserinfo
  | saveHost
  | savePath
  | saveQuery
  | saveFragment
  deriving DecidableEq, Repr

/-- Where a `goto` leads: the actions that run first, and the next state. -/
structure Jump where
  actions : List Action
  target : ℕ
  deriving DecidableEq, Repr

/-- The entries of a state: the bytes of the class take the jump. -/
abbrev Row := List (CharClass × Jump)

/-- A jump without actions. -/
def st (n : ℕ) : Jump := ⟨[], n⟩

def tr38 : Jump := ⟨[.saveUserinfo], 469⟩
def tr263 : Jump := ⟨[.saveUserinfo], 522⟩
def tr461 : Jump := ⟨[.mark], 508⟩
def tr462 : Jump := ⟨[.mark], 454⟩
def tr463 : Jump := ⟨[.mark], 1⟩
def tr466 : Jump := ⟨[.mark], 457⟩
def tr467 : Jump := ⟨[.mark, .saveQuery], 453⟩
def tr468 : Jump := ⟨[.mark], 7⟩
def tr469 : Jump := ⟨[.saveQuery], 453⟩
def tr472 : Jump := ⟨[.mark], 9⟩
def tr473 : Jump := ⟨[.mark], 467⟩
def tr474 : Jump := ⟨[.mark, .saveHost], 453⟩
def tr475 : Jump := ⟨[.mark], 31⟩
def tr476 : Jump := ⟨[.mark, .saveHost], 455⟩
def tr477 : Jump := ⟨[.mark], 490⟩
def tr478 : Jump := ⟨[.mark], 504⟩
def tr479 : Jump := ⟨[.mark], 506⟩
def tr480 : Jump := ⟨[.mark], 505⟩
def tr481 : Jump := ⟨[.mark, .saveHost], 468⟩
def tr482 : Jump := ⟨[.mark, .saveHost], 456⟩
def tr483 : Jump := ⟨[.mark, .saveUserinfo], 469⟩
def tr484 : Jump := ⟨[.mark], 38⟩
def tr485 : Jump := ⟨[.saveHost], 453⟩
def tr486 : Jump := ⟨[.saveHost], 455⟩
def tr487 : Jump := ⟨[.saveHost], 461⟩
def tr488 : Jump := ⟨[.saveHost], 456⟩
def tr489 : Jump := ⟨[.mark, .savePort], 453⟩
def tr490 : Jump := ⟨[.mark, .savePort], 455⟩
def tr491 : Jump := ⟨[.mark], 462⟩
def tr492 : Jump := ⟨[.mark, .savePort], 456⟩
def tr493 : Jump := ⟨[.savePort], 453⟩
def tr494 : Jump := ⟨[.savePort], 455⟩
def tr496 : Jump := ⟨[.savePort], 456⟩
def tr499 : Jump := ⟨[.saveHost], 468⟩
def tr500 : Jump := ⟨[.mark], 489⟩
def tr501 : Jump := ⟨[.mark], 470⟩
def tr502 : Jump := ⟨[.mark], 36⟩
def tr503 : Jump := ⟨[.mark], 471⟩
def tr504 : Jump := ⟨[.mark], 485⟩
def tr505 : Jump := ⟨[.mark], 487⟩
def tr506 : Jump := ⟨[.mark], 486⟩
def tr507 : Jump := ⟨[.mark, .saveHost], 461⟩
def tr543 : Jump := ⟨[.saveScheme], 509⟩
def tr546 : Jump := ⟨[.mark], 229⟩
def tr547 : Jump := ⟨[.mark], 520⟩
def tr548 : Jump := ⟨[.mark, .saveHost, .savePath], 453⟩
def tr549 : Jump := ⟨[.mark], 253⟩
def tr550 : Jump := ⟨[.mark, .saveHost], 513⟩
def tr551 : Jump := ⟨[.mark], 543⟩
def tr552 : Jump := ⟨[.mark], 557⟩
def tr553 : Jump := ⟨[.mark], 559⟩
def tr554 : Jump := ⟨[.mark], 558⟩
def tr555 : Jump := ⟨[.mark, .saveHost], 521⟩
def tr556 : Jump := ⟨[.mark, .saveHost, .savePath], 456⟩
def tr557 : Jump := ⟨[.mark, .saveUserinfo], 522⟩
def tr558 : Jump := ⟨[.mark], 260⟩
def tr559 : Jump := ⟨[.saveHost, .mark, .savePath], 453⟩
def tr560 : Jump := ⟨[.saveHost, .mark], 513⟩
def tr561 : Jump := ⟨[.saveHost], 514⟩
def tr562 : Jump := ⟨[.saveHost, .mark, .savePath], 456⟩
def tr563 : Jump := ⟨[.savePath], 453⟩
def tr565 : Jump := ⟨[.savePath], 456⟩
def tr566 : Jump := ⟨[.mark, .savePort, .savePath], 453⟩
def tr567 : Jump := ⟨[.mark, .savePort], 513⟩
def tr568 : Jump := ⟨[.mark], 515⟩
def tr569 : Jump := ⟨[.mark, .savePort, .savePath], 456⟩
def tr570 : Jump := ⟨[.savePort, .mark, .savePath], 453⟩
def tr571 : Jump := ⟨[.savePort, .mark], 513⟩
def tr573 : Jump := ⟨[.savePort, .mark, .savePath], 456⟩
def tr576 : Jump := ⟨[.saveHost], 521⟩
def tr577 : Jump := ⟨[.mark], 542⟩
def tr578 : Jump := ⟨[.mark], 523⟩
def tr579 : Jump := ⟨[.mark], 258⟩
def tr580 : Jump := ⟨[.mark], 524⟩
def tr581 : Jump := ⟨[.mark], 538⟩
def tr582 : Jump := ⟨[.mark], 540⟩
def tr583 : Jump := ⟨[.mark], 539⟩
def tr584 : Jump := ⟨[.mark, .saveHost], 514⟩

/-! ### The rows -/

/-- Percent-encodings and addresses of a relative reference. -/
def relativeRows : List (ℕ × Row) :=
  [(1, [(xdigit, st 2)]),
  (2, [(xdigit, st 454)]),
  (3, [(xdigit, st 4)]),
  (4, [(xdigit, st 452)]),
  (5, [(xdigit, st 6)]),
  (6, [(xdigit, st 455)]),
  (7, [(xdigit, st 8)]),
  (8, [(xdigit, st 457)]),
  (9, [(d0to4, st 10)]),
  (10, [(digit, st 11)]),
  (11, [(dot, st 12)]),
  (12, [(byteTwo, st 13), (d0, st 15), (d1, st 27), (d2, st 29), (d3to9, st 28)]),
  (13, [(d0to4, st 14)]),
  (14, [(digit, st 15)]),
  (15, [(dot, st 16)]),
  (16, [(byteTwo, st 17), (d0, st 19), (d1, st 23), (d2, st 25), (d3to9, st 24)]),
  (17, [(d0to4, st 18)]),
  (18, [(digit, st 19)]),
  (19, [(dot, st 20)]),
  (20, [(byteTwo, st 21), (d0, st 460), (d1, st 463), (d2, st 465), (d3to9, st 464)]),
  (21, [(d0to4, st 22)]),
  (22, [(digit, st 460)]),
  (23, [(dot, st 20), (digit, st 24)]),
  (24, [(dot, st 20), (digit, st 19)]),
  (25, [(dot, st 20), (digitNo5, st 19), (d5, st 26)]),
  (26, [(dot, st 20), (d0to5, st 19)]),
  (27, [(dot, st 16), (digit, st 28)]),
  (28, [(dot, st 16), (digit, st 15)]),
  (29, [(dot, st 16), (digitNo5, st 15), (d5, st 30)]),
  (30, [(dot, st 16), (d0to5, st 15)]),
  (31, [(xdigit, st 32)]),
  (32, [(xdigit, st 467)]),
  (33, [(userinfoChar, st 33), (percent, st 34), (atSign, tr38)]),
  (34, [(xdigit, st 35)]),
  (35, [(xdigit, st 33)]),
  (36, [(xdigit, st 37)]),
  (37, [(xdigit, st 470)])]

/-- The inside of `[`…`]` in the authority of a relative reference. -/
def ipLiteralRows : List (ℕ × Row) :=
  [(38, [(xdigit, st 39), (colon, st 146), (letterV, st 225)]),
  (39, [(xdigit, st 40), (colon, st 43)]),
  (40, [(xdigit, st 41), (colon, st 43)]),
  (41, [(xdigit, st 42), (colon, st 43)]),
  (42, [(colon, st 43)]),
  (43, [(xdigit, st 44), (colon, st 141)]),
  (44, [(xdigit, st 45), (colon, st 48)]),
  (45, [(xdigit, st 46), (colon, st 48)]),
  (46, [(xdigit, st 47), (colon, st 48)]),
  (47, [(colon, st 48)]),
  (48, [(xdigit, st 49), (colon, st 136)]),
  (49, [(xdigit, st 50), (colon, st 53)]),
  (50, [(xdigit, st 51), (colon, st 53)]),
  (51, [(xdigit, st 52), (colon, st 53)]),
  (52, [(colon, st 53)]),
  (53, [(xdigit, st 54), (colon, st 131)]),
  (54, [(xdigit, st 55), (colon, st 58)]),
  (55, [(xdigit, st 56), (colon, st 58)]),
  (56, [(xdigit, st 57), (colon, st 58)]),
  (57, [(colon, st 58)]),
  (58, [(xdigit, st 59), (colon, st 126)]),
  (59, [(xdigit, st 60), (colon, st 63)]),
  (60, [(xdigit, st 61), (colon, st 63)]),
  (61, [(xdigit, st 62), (colon, st 63)]),
  (62, [(colon, st 63)]),
  (63, [(xdigit, st 64), (colon, st 113)]),
  (64, [(xdigit, st 65), (colon, st 68)]),
  (65, [(xdigit, st 66), (colon, st 68)]),
  (66, [(xdigit, st 67), (colon, st 68)]),
  (67, [(colon, st 68)]),
  (68, [(byteTwo, st 69), (d0, st 96), (d1, st 104), (d2, st 107), (d3to9, st 110),
    (colon, st 111), (letterAF, st 112)]),
  (69, [(d0to4, st 70)]),
  (70, [(digit, st 71)]),
  (71, [(dot, st 72)]),
  (72, [(byteTwo, st 73), (d0, st 75), (d1, st 92), (d2, st 94), (d3to9, st 93)]),
  (73, [(d0to4, st 74)]),
  (74, [(digit, st 75)]),
  (75, [(dot, st 76)]),
  (76, [(byteTwo, st 77), (d0, st 79), (d1, st 88), (d2, st 90), (d3to9, st 89)]),
  (77, [(d0to4, st 78)]),
  (78, [(digit, st 79)]),
  (79, [(dot, st 80)]),
  (80, [(byteTwo, st 81), (d0, st 83), (d1, st 84), (d2, st 86), (d3to9, st 85)]),
  (81, [(d0to4, st 82)]),
  (82, [(digit, st 83)]),
  (83, [(rbracket, st 460)]),
  (84, [(digit, st 85), (rbracket, st 460)]),
  (85, [(digit, st 83), (rbracket, st 460)]),
  (86, [(digitNo5, st 83), (d5, st 87), (rbracket, st 460)]),
  (87, [(d0to5, st 83), (rbracket, st 460)]),
  (88, [(dot, st 80), (digit, st 89)]),
  (89, [(dot, st 80), (digit, st 79)]),
  (90, [(dot, st 80), (digitNo5, st 79), (d5, st 91)]),
  (91, [(dot, st 80), (d0to5, st 79)]),
  (92, [(dot, st 76), (digit, st 93)]),
  (93, [(dot, st 76), (digit, st 75)]),
  (94, [(dot, st 76), (digitNo5, st 75), (d5, st 95)]),
  (95, [(dot, st 76), (d0to5, st 75)]),
  (96, [(dot, st 72), (xdigit, st 97), (colon, st 100)]),
  (97, [(xdigit, st 98), (colon, st 100)]),
  (98, [(xdigit, st 99), (colon, st 100)]),
  (99, [(colon, st 100)]),
  (100, [(xdigit, st 101), (colon, st 83)]),
  (101, [(xdigit, st 102), (rbracket, st 460)]),
  (102, [(xdigit, st 103), (rbracket, st 460)]),
  (103, [(xdigit, st 83), (rbracket, st 460)]),
  (104, [(dot, st 72), (digit, st 105), (colon, st 100), (letterAF, st 97)]),
  (105, [(dot, st 72), (digit, st 106), (colon, st 100), (letterAF, st 98)]),
  (106, [(dot, st 72), (xdigit, st 99), (colon, st 100)]),
  (107, [(dot, st 72), (digitNo5, st 108), (d5, st 109), (colon, st 100), (letterAF, st 97)]),
  (108, [(dot, st 72), (xdigit, st 98), (colon, st 100)]),
  (109, [(dot, st 72), (d0to5, st 106), (xdigitFrom6, st 98), (colon, st 100)]),
  (110, [(dot, st 72), (digit, st 108), (colon, st 100), (letterAF, st 97)]),
  (111, [(xdigit, st 101)]),
  (112, [(xdigit, st 97), (colon, st 100)]),
  (113, [(byteTwo, st 69), (d0, st 114), (d1, st 118), (d2, st 121), (d3to9, st 124),
    (letterAF, st 125)]),
  (114, [(dot, st 72), (xdigit, st 115), (colon, st 111)]),
  (115, [(xdigit, st 116), (colon, st 111)]),
  (116, [(xdigit, st 117), (colon, st 111)]),
  (117, [(colon, st 111)]),
  (118, [(dot, st 72), (digit, st 119), (colon, st 111), (letterAF, st 115)]),
  (119, [(dot, st 72), (digit, st 120), (colon, st 111), (letterAF, st 116)]),
  (120, [(dot, st 72), (xdigit, st 117), (colon, st 111)]),
  (121, [(dot, st 72), (digitNo5, st 122), (d5, st 123), (colon, st 111), (letterAF, st 115)]),
  (122, [(dot, st 72), (xdigit, st 116), (colon, st 111)]),
  (123, [(dot, st 72), (d0to5, st 120), (xdigitFrom6, st 116), (colon, st 111)]),
  (124, [(dot, st 72), (digit, st 122), (colon, st 111), (letterAF, st 115)]),
  (125, [(xdigit, st 115), (colon, st 111)]),
  (126, [(xdigit, st 127)]),
  (127, [(xdigit, st 128), (colon, st 113)]),
  (128, [(xdigit, st 129), (colon, st 113)]),
  (129, [(xdigit, st 130), (colon, st 113)]),
  (130, [(colon, st 113)]),
  (131, [(xdigit, st 132)]),
  (132, [(xdigit, st 133), (colon, st 126)]),
  (133, [(xdigit, st 134), (colon, st 126)]),
  (134, [(xdigit, st 135), (colon, st 126)]),
  (135, [(colon, st 126)]),
  (136, [(xdigit, st 137)]),
  (137, [(xdigit, st 138), (colon, st 131)]),
  (138, [(xdigit, st 139), (colon, st 131)]),
  (139, [(xdigit, st 140), (colon, st 131)]),
  (140, [(colon, st 131)]),
  (141, [(xdigit, st 142)]),
  (142, [(xdigit, st 143), (colon, st 136)]),
  (143, [(xdigit, st 144), (colon, st 136)]),
  (144, [(xdigit, st 145), (colon, st 136)]),
  (145, [(colon, st 136)]),
  (146, [(colon, st 147)]),
  (147, [(byteTwo, st 69), (d0, st 148), (d1, st 217), (d2, st 220), (d3to9, st 223),
    (letterAF, st 224), (rbracket, st 460)]),
  (148, [(dot, st 72), (xdigit, st 149), (colon, st 152), (rbracket, st 460)]),
  (149, [(xdigit, st 150), (colon, st 152), (rbracket, st 460)]),
  (150, [(xdigit, st 151), (colon, st 152), (rbracket, st 460)]),
  (151, [(colon, st 152), (rbracket, st 460)]),
  (152, [(byteTwo, st 69), (d0, st 153), (d1, st 209), (d2, st 212), (d3to9, st 215),
    (letterAF, st 216)]),
  (153, [(dot, st 72), (xdigit, st 154), (colon, st 157), (rbracket, st 460)]),
  (154, [(xdigit, st 155), (colon, st 157), (rbracket, st 460)]),
  (155, [(xdigit, st 156), (colon, st 157), (rbracket, st 460)]),
  (156, [(colon, st 157), (rbracket, st 460)]),
  (157, [(byteTwo, st 69), (d0, st 158), (d1, st 201), (d2, st 204), (d3to9, st 207),
    (letterAF, st 208)]),
  (158, [(dot, st 72), (xdigit, st 159), (colon, st 162), (rbracket, st 460)]),
  (159, [(xdigit, st 160), (colon, st 162), (rbracket, st 460)]),
  (160, [(xdigit, st 161), (colon, st 162), (rbracket, st 460)]),
  (161, [(colon, st 162), (rbracket, st 460)]),
  (162, [(byteTwo, st 69), (d0, st 163), (d1, st 193), (d2, st 196), (d3to9, st 199),
    (letterAF, st 200)]),
  (163, [(dot, st 72), (xdigit, st 164), (colon, st 167), (rbracket, st 460)]),
  (164, [(xdigit, st 165), (colon, st 167), (rbracket, st 460)]),
  (165, [(xdigit, st 166), (colon, st 167), (rbracket, st 460)]),
  (166, [(colon, st 167), (rbracket, st 460)]),
  (167, [(byteTwo, st 69), (d0, st 168), (d1, st 185), (d2, st 188), (d3to9, st 191),
    (letterAF, st 192)]),
  (168, [(dot, st 72), (xdigit, st 169), (colon, st 172), (rbracket, st 460)]),
  (169, [(xdigit, st 170), (colon, st 172), (rbracket, st 460)]),
  (170, [(xdigit, st 171), (colon, st 172), (rbracket, st 460)]),
  (171, [(colon, st 172), (rbracket, st 460)]),
  (172, [(byteTwo, st 69), (d0, st 173), (d1, st 177), (d2, st 180), (d3to9, st 183),
    (letterAF, st 184)]),
  (173, [(dot, st 72), (xdigit, st 174), (colon, st 111), (rbracket, st 460)]),
  (174, [(xdigit, st 175), (colon, st 111), (rbracket, st 460)]),
  (175, [(xdigit, st 176), (colon, st 111), (rbracket, st 460)]),
  (176, [(colon, st 111), (rbracket, st 460)]),
  (177, [(dot, st 72), (digit, st 178), (colon, st 111), (letterAF, st 174), (rbracket, st 460)]),
  (178, [(dot, st 72), (digit, st 179), (colon, st 111), (letterAF, st 175), (rbracket, st 460)]),
  (179, [(dot, st 72), (xdigit, st 176), (colon, st 111), (rbracket, st 460)]),
  (180, [(dot, st 72), (digitNo5, st 181), (d5, st 182), (colon, st 111), (letterAF, st 174),
    (rbracket, st 460)]),
  (181, [(dot, st 72), (xdigit, st 175), (colon, st 111), (rbracket, st 460)]),
  (182, [(dot, st 72), (d0to5, st 179), (xdigitFrom6, st 175), (colon, st 111), (rbracket, st 460)]),
  (183, [(dot, st 72), (digit, st 181), (colon, st 111), (letterAF, st 174), (rbracket, st 460)]),
  (184, [(xdigit, st 174), (colon, st 111), (rbracket, st 460)]),
  (185, [(dot, st 72), (digit, st 186), (colon, st 172), (letterAF, st 169), (rbracket, st 460)]),
  (186, [(dot, st 72), (digit, st 187), (colon, st 172), (letterAF, st 170), (rbracket, st 460)]),
  (187, [(dot, st 72), (xdigit, st 171), (colon, st 172), (rbracket, st 460)]),
  (188, [(dot, st 72), (digitNo5, st 189), (d5, st 190), (colon, st 172), (letterAF, st 169),
    (rbracket, st 460)]),
  (189, [(dot, st 72), (xdigit, st 170), (colon, st 172), (rbracket, st 460)]),
  (190, [(dot, st 72), (d0to5, st 187), (xdigitFrom6, st 170), (colon, st 172), (rbracket, st 460)]),
  (191, [(dot, st 72), (digit, st 189), (colon, st 172), (letterAF, st 169), (rbracket, st 460)]),
  (192, [(xdigit, st 169), (colon, st 172), (rbracket, st 460)]),
  (193, [(dot, st 72), (digit, st 194), (colon, st 167), (letterAF, st 164), (rbracket, st 460)]),
  (194, [(dot, st 72), (digit, st 195), (colon, st 167), (letterAF, st 165), (rbracket, st 460)]),
  (195, [(dot, st 72), (xdigit, st 166), (colon, st 167), (rbracket, st 460)]),
  (196, [(dot, st 72), (digitNo5, st 197), (d5, st 198), (colon, st 167), (letterAF, st 164),
    (rbracket, st 460)]),
  (197, [(dot, st 72), (xdigit, st 165), (colon, st 167), (rbracket, st 460)]),
  (198, [(dot, st 72), (d0to5, st 195), (xdigitFrom6, st 165), (colon, st 167), (rbracket, st 460)]),
  (199, [(dot, st 72), (digit, st 197), (colon, st 167), (letterAF, st 164), (rbracket, st 460)]),
  (200, [(xdigit, st 164), (colon, st 167), (rbracket, st 460)]),
  (201, [(dot, st 72), (digit, st 202), (colon, st 162), (letterAF, st 159), (rbracket, st 460)]),
  (202, [(dot, st 72), (digit, st 203), (colon, st 162), (letterAF, st 160), (rbracket, st 460)]),
  (203, [(dot, st 72), (xdigit, st 161), (colon, st 162), (rbracket, st 460)]),
  (204, [(dot, st 72), (digitNo5, st 205), (d5, st 206), (colon, st 162), (letterAF, st 159),
    (rbracket, st 460)]),
  (205, [(dot, st 72), (xdigit, st 160), (colon, st 162), (rbracket, st 460)]),
  (206, [(dot, st 72), (d0to5, st 203), (xdigitFrom6, st 160), (colon, st 162), (rbracket, st 460)]),
  (207, [(dot, st 72), (digit, st 205), (colon, st 162), (letterAF, st 159), (rbracket, st 460)]),
  (208, [(xdigit, st 159), (colon, st 162), (rbracket, st 460)]),
  (209, [(dot, st 72), (digit, st 210), (colon, st 157), (letterAF, st 154), (rbracket, st 460)]),
  (210, [(dot, st 72), (digit, st 211), (colon, st 157), (letterAF, st 155), (rbracket, st 460)]),
  (211, [(dot, st 72), (xdigit, st 156), (colon, st 157), (rbracket, st 460)]),
  (212, [(dot, st 72), (digitNo5, st 213), (d5, st 214), (colon, st 157), (letterAF, st 154),
    (rbracket, st 460)]),
  (213, [(dot, st 72), (xdigit, st 155), (colon, st 157), (rbracket, st 460)]),
  (214, [(dot, st 72), (d0to5, st 211), (xdigitFrom6, st 155), (colon, st 157), (rbracket, st 460)]),
  (215, [(dot, st 72), (digit, st 213), (colon, st 157), (letterAF, st 154), (rbracket, st 460)]),
  (216, [(xdigit, st 154), (colon, st 157), (rbracket, st 460)]),
  (217, [(dot, st 72), (digit, st 218), (colon, st 152), (letterAF, st 149), (rbracket, st 460)]),
  (218, [(dot, st 72), (digit, st 219), (colon, st 152), (letterAF, st 150), (rbracket, st 460)]),
  (219, [(dot, st 72), (xdigit, st 151), (colon, st 152), (rbracket, st 460)]),
  (220, [(dot, st 72), (digitNo5, st 221), (d5, st 222), (colon, st 152), (letterAF, st 149),
    (rbracket, st 460)]),
  (221, [(dot, st 72), (xdigit, st 150), (colon, st 152), (rbracket, st 460)]),
  (222, [(dot, st 72), (d0to5, st 219), (xdigitFrom6, st 150), (colon, st 152), (rbracket, st 460)]),
  (223, [(dot, st 72), (digit, st 221), (colon, st 152), (letterAF, st 149), (rbracket, st 460)]),
  (224, [(xdigit, st 149), (colon, st 152), (rbracket, st 460)]),
  (225, [(xdigit, st 226)]),
  (226, [(dot, st 227), (xdigit, st 226)]),
  (227, [(userinfoChar, st 228)]),
  (228, [(userinfoChar, st 228), (rbracket, st 460)])]

/-- The machine has the inside of `[`…`]` twice.  In the authority of a URI with a scheme the
    states are `222` higher, and the closing bracket leads to `512` instead of `460`. -/
def ipLiteralRowsUri : List (ℕ × Row) :=
  ipLiteralRows.map fun r =>
    (r.1 + 222, r.2.map fun e => (e.1, st (if e.2.target = 460 then 512 else e.2.target + 222)))

/-- Addresses and percent-encodings in the authority of a URI with a scheme. -/
def authorityRows : List (ℕ × Row) :=
  [(229, [(d0to4, st 230)]),
  (230, [(digit, st 231)]),
  (231, [(dot, st 232)]),
  (232, [(byteTwo, st 233), (d0, st 235), (d1, st 249), (d2, st 251), (d3to9, st 250)]),
  (233, [(d0to4, st 234)]),
  (234, [(digit, st 235)]),
  (235, [(dot, st 236)]),
  (236, [(byteTwo, st 237), (d0, st 239), (d1, st 245), (d2, st 247), (d3to9, st 246)]),
  (237, [(d0to4, st 238)]),
  (238, [(digit, st 239)]),
  (239, [(dot, st 240)]),
  (240, [(byteTwo, st 241), (d0, st 512), (d1, st 516), (d2, st 518), (d3to9, st 517)]),
  (241, [(d0to4, st 242)]),
  (242, [(digit, st 512)]),
  (243, [(xdigit, st 244)]),
  (244, [(xdigit, st 513)]),
  (245, [(dot, st 240), (digit, st 246)]),
  (246, [(dot, st 240), (digit, st 239)]),
  (247, [(dot, st 240), (digitNo5, st 239), (d5, st 248)]),
  (248, [(dot, st 240), (d0to5, st 239)]),
  (249, [(dot, st 236), (digit, st 250)]),
  (250, [(dot, st 236), (digit, st 235)]),
  (251, [(dot, st 236), (digitNo5, st 235), (d5, st 252)]),
  (252, [(dot, st 236), (d0to5, st 235)]),
  (253, [(xdigit, st 254)]),
  (254, [(xdigit, st 520)]),
  (255, [(userinfoChar, st 255), (percent, st 256), (atSign, tr263)]),
  (256, [(xdigit, st 257)]),
  (257, [(xdigit, st 255)]),
  (258, [(xdigit, st 259)]),
  (259, [(xdigit, st 523)])]

/-- The start, and the final states of a relative reference; queries and fragments. -/
def relativeFinalRows : List (ℕ × Row) :=
  [(451, [(pcharNoColonAlpha, st 452), (hashSign, st 453), (percent, st 3), (slash, st 458),
    (questionMark, st 456), (alpha, tr461)]),
  (452, [(pcharNoColon, st 452), (hashSign, st 453), (percent, st 3), (slash, st 455),
    (questionMark, st 456)]),
  (453, [(queryChar, tr462), (percent, tr463)]),
  (454, [(queryChar, st 454), (percent, st 1)]),
  (455, [(pathChar, st 455), (hashSign, st 453), (percent, st 5), (questionMark, st 456)]),
  (456, [(queryChar, tr466), (hashSign, tr467), (percent, tr468)]),
  (457, [(queryChar, st 457), (hashSign, tr469), (percent, st 7)]),
  (458, [(pchar, st 455), (hashSign, st 453), (percent, st 5), (slash, st 459),
    (questionMark, st 456)]),
  (459, [(byteTwo, tr472), (nameNoDigit, tr473), (hashSign, tr474), (percent, tr475),
    (slash, tr476), (d0, tr477), (d1, tr478), (d2, tr479), (d3to9, tr480), (colon, tr481),
    (questionMark, tr482), (atSign, tr483), (lbracket, tr484)]),
  (460, [(hashSign, tr485), (slash, tr486), (colon, tr487), (questionMark, tr488)]),
  (461, [(hashSign, tr489), (slash, tr490), (digit, tr491), (questionMark, tr492)]),
  (462, [(hashSign, tr493), (slash, tr494), (digit, st 462), (questionMark, tr496)]),
  (463, [(hashSign, tr485), (slash, tr486), (digit, st 464), (colon, tr487), (questionMark, tr488)]),
  (464, [(hashSign, tr485), (slash, tr486), (digit, st 460), (colon, tr487), (questionMark, tr488)]),
  (465, [(hashSign, tr485), (slash, tr486), (digitNo5, st 460), (d5, st 466), (colon, tr487),
    (questionMark, tr488)]),
  (466, [(hashSign, tr485), (slash, tr486), (d0to5, st 460), (colon, tr487), (questionMark, tr488)]),
  (467, [(nameChar, st 467), (hashSign, tr485), (percent, st 31), (slash, tr486), (colon, tr499),
    (questionMark, tr488), (atSign, tr38)]),
  (468, [(userinfoNoDigit, st 33), (hashSign, tr489), (percent, st 34), (slash, tr490),
    (digit, tr500), (questionMark, tr492), (atSign, tr38)]),
  (469, [(byteTwo, tr472), (nameNoDigit, tr501), (hashSign, tr474), (percent, tr502),
    (slash, tr476), (d0, tr503), (d1, tr504), (d2, tr505), (d3to9, tr506), (colon, tr507),
    (questionMark, tr482), (lbracket, tr484)]),
  (470, [(nameChar, st 470), (hashSign, tr485), (percent, st 36), (slash, tr486), (colon, tr487),
    (questionMark, tr488)]),
  (471, [(nameNoDot, st 470), (hashSign, tr485), (percent, st 36), (dot, st 472), (slash, tr486),
    (colon, tr487), (questionMark, tr488)]),
  (472, [(byteTwo, st 13), (nameNoDigit, st 470), (hashSign, tr485), (percent, st 36),
    (slash, tr486), (d0, st 473), (d1, st 481), (d2, st 483), (d3to9, st 482), (colon, tr487),
    (questionMark, tr488)]),
  (473, [(nameNoDot, st 470), (hashSign, tr485), (percent, st 36), (dot, st 474), (slash, tr486),
    (colon, tr487), (questionMark, tr488)]),
  (474, [(byteTwo, st 17), (nameNoDigit, st 470), (hashSign, tr485), (percent, st 36),
    (slash, tr486), (d0, st 475), (d1, st 477), (d2, st 479), (d3to9, st 478), (colon, tr487),
    (questionMark, tr488)]),
  (475, [(nameNoDot, st 470), (hashSign, tr485), (percent, st 36), (dot, st 476), (slash, tr486),
    (colon, tr487), (questionMark, tr488)]),
  (476, [(byteTwo, st 21), (nameChar, st 470), (hashSign, tr485), (percent, st 36),
    (slash, tr486), (colon, tr487), (questionMark, tr488)]),
  (477, [(nameNoDigitDot, st 470), (hashSign, tr485), (percent, st 36), (dot, st 476),
    (slash, tr486), (digit, st 478), (colon, tr487), (questionMark, tr488)]),
  (478, [(nameNoDigitDot, st 470), (hashSign, tr485), (percent, st 36), (dot, st 476),
    (slash, tr486), (digit, st 475), (colon, tr487), (questionMark, tr488)]),
  (479, [(nameNoDigitDot, st 470), (hashSign, tr485), (percent, st 36), (dot, st 476),
    (slash, tr486), (digitNo5, st 475), (d5, st 480), (colon, tr487), (questionMark, tr488)]),
  (480, [(nameNoDotFrom6, st 470), (hashSign, tr485), (percent, st 36), (dot, st 476),
    (slash, tr486), (d0to5, st 475), (colon, tr487), (questionMark, tr488)]),
  (481, [(nameNoDigitDot, st 470), (hashSign, tr485), (percent, st 36), (dot, st 474),
    (slash, tr486), (digit, st 482), (colon, tr487), (questionMark, tr488)]),
  (482, [(nameNoDigitDot, st 470), (hashSign, tr485), (percent, st 36), (dot, st 474),
    (slash, tr486), (digit, st 473), (colon, tr487), (questionMark, tr488)]),
  (483, [(nameNoDigitDot, st 470), (hashSign, tr485), (percent, st 36), (dot, st 474),
    (slash, tr486), (digitNo5, st 473), (d5, st 484), (colon, tr487), (questionMark, tr488)]),
  (484, [(nameNoDotFrom6, st 470), (hashSign, tr485), (percent, st 36), (dot, st 474),
    (slash, tr486), (d0to5, st 473), (colon, tr487), (questionMark, tr488)]),
  (485, [(nameNoDigitDot, st 470), (hashSign, tr485), (percent, st 36), (dot, st 472),
    (slash, tr486), (digit, st 486), (colon, tr487), (questionMark, tr488)]),
  (486, [(nameNoDigitDot, st 470), (hashSign, tr485), (percent, st 36), (dot, st 472),
    (slash, tr486), (digit, st 471), (colon, tr487), (questionMark, tr488)]),
  (487, [(nameNoDigitDot, st 470), (hashSign, tr485), (percent, st 36), (dot, st 472),
    (slash, tr486), (digitNo5, st 471), (d5, st 488), (colon, tr487), (questionMark, tr488)]),
  (488, [(nameNoDotFrom6, st 470), (hashSign, tr485), (percent, st 36), (dot, st 472),
    (slash, tr486), (d0to5, st 471), (colon, tr487), (questionMark, tr488)]),
  (489, [(userinfoNoDigit, st 33), (hashSign, tr493), (percent, st 34), (slash, tr494),
    (digit, st 489), (questionMark, tr496), (atSign, tr38)]),
  (490, [(nameNoDot, st 467), (hashSign, tr485), (percent, st 31), (dot, st 491), (slash, tr486),
    (colon, tr499), (questionMark, tr488), (atSign, tr38)]),
  (491, [(byteTwo, st 13), (nameNoDigit, st 467), (hashSign, tr485), (percent, st 31),
    (slash, tr486), (d0, st 492), (d1, st 500), (d2, st 502), (d3to9, st 501), (colon, tr499),
    (questionMark, tr488), (atSign, tr38)]),
  (492, [(nameNoDot, st 467), (hashSign, tr485), (percent, st 31), (dot, st 493), (slash, tr486),
    (colon, tr499), (questionMark, tr488), (atSign, tr38)]),
  (493, [(byteTwo, st 17), (nameNoDigit, st 467), (hashSign, tr485), (percent, st 31),
    (slash, tr486), (d0, st 494), (d1, st 496), (d2, st 498), (d3to9, st 497), (colon, tr499),
    (questionMark, tr488), (atSign, tr38)]),
  (494, [(nameNoDot, st 467), (hashSign, tr485), (percent, st 31), (dot, st 495), (slash, tr486),
    (colon, tr499), (questionMark, tr488), (atSign, tr38)]),
  (495, [(byteTwo, st 21), (nameChar, st 467), (hashSign, tr485), (percent, st 31),
    (slash, tr486), (colon, tr499), (questionMark, tr488), (atSign, tr38)]),
  (496, [(nameNoDigitDot, st 467), (hashSign, tr485), (percent, st 31), (dot, st 495),
    (slash, tr486), (digit, st 497), (colon, tr499), (questionMark, tr488), (atSign, tr38)]),
  (497, [(nameNoDigitDot, st 467), (hashSign, tr485), (percent, st 31), (dot, st 495),
    (slash, tr486), (digit, st 494), (colon, tr499), (questionMark, tr488), (atSign, tr38)]),
  (498, [(nameNoDigitDot, st 467), (hashSign, tr485), (percent, st 31), (dot, st 495),
    (slash, tr486), (digitNo5, st 494), (d5, st 499), (colon, tr499), (questionMark, tr488),
    (atSign, tr38)]),
  (499, [(nameNoDotFrom6, st 467), (hashSign, tr485), (percent, st 31), (dot, st 495),
    (slash, tr486), (d0to5, st 494), (colon, tr499), (questionMark, tr488), (atSign, tr38)]),
  (500, [(nameNoDigitDot, st 467), (hashSign, tr485), (percent, st 31), (dot, st 493),
    (slash, tr486), (digit, st 501), (colon, tr499), (questionMark, tr488), (atSign, tr38)]),
  (501, [(nameNoDigitDot, st 467), (hashSign, tr485), (percent, st 31), (dot, st 493),
    (slash, tr486), (digit, st 492), (colon, tr499), (questionMark, tr488), (atSign, tr38)]),
  (502, [(nameNoDigitDot, st 467), (hashSign, tr485), (percent, st 31), (dot, st 493),
    (slash, tr486), (digitNo5, st 492), (d5, st 503), (colon, tr499), (questionMark, tr488),
    (atSign, tr38)]),
  (503, [(nameNoDotFrom6, st 467), (hashSign, tr485), (percent, st 31), (dot, st 493),
    (slash, tr486), (d0to5, st 492), (colon, tr499), (questionMark, tr488), (atSign, tr38)]),
  (504, [(nameNoDigitDot, st 467), (hashSign, tr485), (percent, st 31), (dot, st 491),
    (slash, tr486), (digit, st 505), (colon, tr499), (questionMark, tr488), (atSign, tr38)]),
  (505, [(nameNoDigitDot, st 467), (hashSign, tr485), (percent, st 31), (dot, st 491),
    (slash, tr486), (digit, st 490), (colon, tr499), (questionMark, tr488), (atSign, tr38)]),
  (506, [(nameNoDigitDot, st 467), (hashSign, tr485), (percent, st 31), (dot, st 491),
    (slash, tr486), (digitNo5, st 490), (d5, st 507), (colon, tr499), (questionMark, tr488),
    (atSign, tr38)]),
  (507, [(nameNoDotFrom6, st 467), (hashSign, tr485), (percent, st 31), (dot, st 491),
    (slash, tr486), (d0to5, st 490), (colon, tr499), (questionMark, tr488), (atSign, tr38)])]

/-- The final states of a URI with a scheme. -/
def uriFinalRows : List (ℕ × Row) :=
  [(508, [(pcharNoScheme, st 452), (hashSign, st 453), (percent, st 3), (schemeChar, st 508),
    (slash, st 455), (colon, tr543), (questionMark, st 456)]),
  (509, [(pchar, st 455), (hashSign, st 453), (percent, st 5), (slash, st 510),
    (questionMark, st 456)]),
  (510, [(pchar, st 455), (hashSign, st 453), (percent, st 5), (slash, st 511),
    (questionMark, st 456)]),
  (511, [(byteTwo, tr546), (nameNoDigit, tr547), (hashSign, tr548), (percent, tr549),
    (slash, tr550), (d0, tr551), (d1, tr552), (d2, tr553), (d3to9, tr554), (colon, tr555),
    (questionMark, tr556), (atSign, tr557), (lbracket, tr558)]),
  (512, [(hashSign, tr559), (slash, tr560), (colon, tr561), (questionMark, tr562)]),
  (513, [(pathChar, st 513), (hashSign, tr563), (percent, st 243), (questionMark, tr565)]),
  (514, [(hashSign, tr566), (slash, tr567), (digit, tr568), (questionMark, tr569)]),
  (515, [(hashSign, tr570), (slash, tr571), (digit, st 515), (questionMark, tr573)]),
  (516, [(hashSign, tr559), (slash, tr560), (digit, st 517), (colon, tr561), (questionMark, tr562)]),
  (517, [(hashSign, tr559), (slash, tr560), (digit, st 512), (colon, tr561), (questionMark, tr562)]),
  (518, [(hashSign, tr559), (slash, tr560), (digitNo5, st 512), (d5, st 519), (colon, tr561),
    (questionMark, tr562)]),
  (519, [(hashSign, tr559), (slash, tr560), (d0to5, st 512), (colon, tr561), (questionMark, tr562)]),
  (520, [(nameChar, st 520), (hashSign, tr559), (percent, st 253), (slash, tr560), (colon, tr576),
    (questionMark, tr562), (atSign, tr263)]),
  (521, [(userinfoNoDigit, st 255), (hashSign, tr566), (percent, st 256), (slash, tr567),
    (digit, tr577), (questionMark, tr569), (atSign, tr263)]),
  (522, [(byteTwo, tr546), (nameNoDigit, tr578), (hashSign, tr548), (percent, tr579),
    (slash, tr550), (d0, tr580), (d1, tr581), (d2, tr582), (d3to9, tr583), (colon, tr584),
    (questionMark, tr556), (lbracket, tr558)]),
  (523, [(nameChar, st 523), (hashSign, tr559), (percent, st 258), (slash, tr560), (colon, tr561),
    (questionMark, tr562)]),
  (524, [(nameNoDot, st 523), (hashSign, tr559), (percent, st 258), (dot, st 525), (slash, tr560),
    (colon, tr561), (questionMark, tr562)]),
  (525, [(byteTwo, st 233), (nameNoDigit, st 523), (hashSign, tr559), (percent, st 258),
    (slash, tr560), (d0, st 526), (d1, st 534), (d2, st 536), (d3to9, st 535), (colon, tr561),
    (questionMark, tr562)]),
  (526, [(nameNoDot, st 523), (hashSign, tr559), (percent, st 258), (dot, st 527), (slash, tr560),
    (colon, tr561), (questionMark, tr562)]),
  (527, [(byteTwo, st 237), (nameNoDigit, st 523), (hashSign, tr559), (percent, st 258),
    (slash, tr560), (d0, st 528), (d1, st 530), (d2, st 532), (d3to9, st 531), (colon, tr561),
    (questionMark, tr562)]),
  (528, [(nameNoDot, st 523), (hashSign, tr559), (percent, st 258), (dot, st 529), (slash, tr560),
    (colon, tr561), (questionMark, tr562)]),
  (529, [(byteTwo, st 241), (nameChar, st 523), (hashSign, tr559), (percent, st 258),
    (slash, tr560), (colon, tr561), (questionMark, tr562)]),
  (530, [(nameNoDigitDot, st 523), (hashSign, tr559), (percent, st 258), (dot, st 529),
    (slash, tr560), (digit, st 531), (colon, tr561), (questionMark, tr562)]),
  (531, [(nameNoDigitDot, st 523), (hashSign, tr559), (percent, st 258), (dot, st 529),
    (slash, tr560), (digit, st 528), (colon, tr561), (questionMark, tr562)]),
  (532, [(nameNoDigitDot, st 523), (hashSign, tr559), (percent, st 258), (dot, st 529),
    (slash, tr560), (digitNo5, st 528), (d5, st 533), (colon, tr561), (questionMark, tr562)]),
  (533, [(nameNoDotFrom6, st 523), (hashSign, tr559), (percent, st 258), (dot, st 529),
    (slash, tr560), (d0to5, st 528), (colon, tr561), (questionMark, tr562)]),
  (534, [(nameNoDigitDot, st 523), (hashSign, tr559), (percent, st 258), (dot, st 527),
    (slash, tr560), (digit, st 535), (colon, tr561), (questionMark, tr562)]),
  (535, [(nameNoDigitDot, st 523), (hashSign, tr559), (percent, st 258), (dot, st 527),
    (slash, tr560), (digit, st 526), (colon, tr561), (questionMark, tr562)]),
  (536, [(nameNoDigitDot, st 523), (hashSign, tr559), (percent, st 258), (dot, st 527),
    (slash, tr560), (digitNo5, st 526), (d5, st 537), (colon, tr561), (questionMark, tr562)]),
  (537, [(nameNoDotFrom6, st 523), (hashSign, tr559), (percent, st 258), (dot, st 527),
    (slash, tr560), (d0to5, st 526), (colon, tr561), (questionMark, tr562)]),
  (538, [(nameNoDigitDot, st 523), (hashSign, tr559), (percent, st 258), (dot, st 525),
    (slash, tr560), (digit, st 539), (colon, tr561), (questionMark, tr562)]),
  (539, [(nameNoDigitDot, st 523), (hashSign, tr559), (percent, st 258), (dot, st 525),
    (slash, tr560), (digit, st 524), (colon, tr561), (questionMark, tr562)]),
  (540, [(nameNoDigitDot, st 523), (hashSign, tr559), (percent, st 258), (dot, st 525),
    (slash, tr560), (digitNo5, st 524), (d5, st 541), (colon, tr561), (questionMark, tr562)]),
  (541, [(nameNoDotFrom6, st 523), (hashSign, tr559), (percent, st 258), (dot, st 525),
    (slash, tr560), (d0to5, st 524), (colon, tr561), (questionMark, tr562)]),
  (542, [(userinfoNoDigit, st 255), (hashSign, tr570), (percent, st 256), (slash, tr571),
    (digit, st 542), (questionMark, tr573), (atSign, tr263)]),
  (543, [(nameNoDot, st 520), (hashSign, tr559), (percent, st 253), (dot, st 544), (slash, tr560),
    (colon, tr576), (questionMark, tr562), (atSign, tr263)]),
  (544, [(byteTwo, st 233), (nameNoDigit, st 520), (hashSign, tr559), (percent, st 253),
    (slash, tr560), (d0, st 545), (d1, st 553), (d2, st 555), (d3to9, st 554), (colon, tr576),
    (questionMark, tr562), (atSign, tr263)]),
  (545, [(nameNoDot, st 520), (hashSign, tr559), (percent, st 253), (dot, st 546), (slash, tr560),
    (colon, tr576), (questionMark, tr562), (atSign, tr263)]),
  (546, [(byteTwo, st 237), (nameNoDigit, st 520), (hashSign, tr559), (percent, st 253),
    (slash, tr560), (d0, st 547), (d1, st 549), (d2, st 551), (d3to9, st 550), (colon, tr576),
    (questionMark, tr562), (atSign, tr263)]),
  (547, [(nameNoDot, st 520), (hashSign, tr559), (percent, st 253), (dot, st 548), (slash, tr560),
    (colon, tr576), (questionMark, tr562), (atSign, tr263)]),
  (548, [(byteTwo, st 241), (nameChar, st 520), (hashSign, tr559), (percent, st 253),
    (slash, tr560), (colon, tr576), (questionMark, tr562), (atSign, tr263)]),
  (549, [(nameNoDigitDot, st 520), (hashSign, tr559), (percent, st 253), (dot, st 548),
    (slash, tr560), (digit, st 550), (colon, tr576), (questionMark, tr562), (atSign, tr263)]),
  (550, [(nameNoDigitDot, st 520), (hashSign, tr559), (percent, st 253), (dot, st 548),
    (slash, tr560), (digit, st 547), (colon, tr576), (questionMark, tr562), (atSign, tr263)]),
  (551, [(nameNoDigitDot, st 520), (hashSign, tr559), (percent, st 253), (dot, st 548),
    (slash, tr560), (digitNo5, st 547), (d5, st 552), (colon, tr576), (questionMark, tr562),
    (atSign, tr263)]),
  (552, [(nameNoDotFrom6, st 520), (hashSign, tr559), (percent, st 253), (dot, st 548),
    (slash, tr560), (d0to5, st 547), (colon, tr576), (questionMark, tr562), (atSign, tr263)]),
  (553, [(nameNoDigitDot, st 520), (hashSign, tr559), (percent, st 253), (dot, st 546),
    (slash, tr560), (digit, st 554), (colon, tr576), (questionMark, tr562), (atSign, tr263)]),
  (554, [(nameNoDigitDot, st 520), (hashSign, tr559), (percent, st 253), (dot, st 546),
    (slash, tr560), (digit, st 545), (colon, tr576), (questionMark, tr562), (atSign, tr263)]),
  (555, [(nameNoDigitDot, st 520), (hashSign, tr559), (percent, st 253), (dot, st 546),
    (slash, tr560), (digitNo5, st 545), (d5, st 556), (colon, tr576), (questionMark, tr562),
    (atSign, tr263)]),
  (556, [(nameNoDotFrom6, st 520), (hashSign, tr559), (percent, st 253), (dot, st 546),
    (slash, tr560), (d0to5, st 545), (colon, tr576), (questionMark, tr562), (atSign, tr263)]),
  (557, [(nameNoDigitDot, st 520), (hashSign, tr559), (percent, st 253), (dot, st 544),
    (slash, tr560), (digit, st 558), (colon, tr576), (questionMark, tr562), (atSign, tr263)]),
  (558, [(nameNoDigitDot, st 520), (hashSign, tr559), (percent, st 253), (dot, st 544),
    (slash, tr560), (digit, st 543), (colon, tr576), (questionMark, tr562), (atSign, tr263)]),
  (559, [(nameNoDigitDot, st 520), (hashSign, tr559), (percent, st 253), (dot, st 544),
    (slash, tr560), (digitNo5, st 543), (d5, st 560), (colon, tr576), (questionMark, tr562),
    (atSign, tr263)]),
  (560, [(nameNoDotFrom6, st 520), (hashSign, tr559), (percent, st 253), (dot, st 544),
    (slash, tr560), (d0to5, st 543), (colon, tr576), (questionMark, tr562), (atSign, tr263)])]

/-- The table. -/
def rows : List (ℕ × Row) :=
  relativeRows ++ ipLiteralRows ++ authorityRows ++ ipLiteralRowsUri ++ relativeFinalRows ++
    uriFinalRows

/-- The `case` of a state. -/
def row (cs : ℕ) : Row := ((rows.find? fun r => Nat.beq r.1 cs).map (·.2)).getD []

/-! ### The end of the input -/

/-- The states with actions at the end of the input, as ranges, and these actions. -/
def eofRows : List (List (ℕ × ℕ) × List Action) :=
  [ ([(453, 453)], [.mark, .saveFragment]),
    ([(454, 454)], [.saveFragment]),
    ([(456, 456)], [.mark, .saveQuery]),
    ([(457, 457)], [.saveQuery]),
    ([(459, 459), (469, 469)], [.mark, .saveHost]),
    ([(460, 460), (463, 467), (470, 488), (490, 507)], [.saveHost]),
    ([(461, 461), (468, 468)], [.mark, .savePort]),
    ([(462, 462), (489, 489)], [.savePort]),
    ([(511, 511), (522, 522)], [.mark, .saveHost, .savePath]),
    ([(512, 512), (516, 520), (523, 541), (543, 560)], [.saveHost, .mark, .savePath]),
    ([(513, 513)], [.savePath]),
    ([(514, 514), (521, 521)], [.mark, .savePort, .savePath]),
    ([(515, 515), (542, 542)], [.savePort, .mark, .savePath]) ]

/-- The actions a state runs at the end of the input. -/
def eofActions (cs : ℕ) : List Action :=
  ((eofRows.find? fun r => r.1.any fun q => Nat.ble q.1 cs && Nat.ble cs q.2).map (·.2)).getD []

/-- `uri_parser_start`, `uri_parser_first_final` and `uri_parser_error`. -/
def start : ℕ := 451
def firstFinal : ℕ := 451
def error : ℕ := 0

end UriParser

end LoNetfw.Net
