import Macromark.Text.Mark

/-!
# Base letters

Canonical decomposition writes an accented letter as a base letter and its
marks; `unaccented` keeps the base letter alone. Hangul syllables and
compatibility ideographs decompose only into letters of their own scripts and
stand for themselves here.
-/

namespace Macromark.Text

/-- Each base character with the characters that decompose into it and marks. -/
def accentedForms : List (Char × String) := [
  (';', "\u037e"),
  ('<', "\u226e"),
  ('=', "\u2260"),
  ('>', "\u226f"),
  ('A', "ÀÁÂÃÄÅĀĂĄǍǞǠǺȀȂȦḀẠẢẤẦẨẪẬẮẰẲẴẶ\u212b"),
  ('B', "ḂḄḆ"),
  ('C', "ÇĆĈĊČḈ"),
  ('D', "ĎḊḌḎḐḒ"),
  ('E', "ÈÉÊËĒĔĖĘĚȄȆȨḔḖḘḚḜẸẺẼẾỀỂỄỆ"),
  ('F', "Ḟ"),
  ('G', "ĜĞĠĢǦǴḠ"),
  ('H', "ĤȞḢḤḦḨḪ"),
  ('I', "ÌÍÎÏĨĪĬĮİǏȈȊḬḮỈỊ"),
  ('J', "Ĵ"),
  ('K', "ĶǨḰḲḴ\u212a"),
  ('L', "ĹĻĽḶḸḺḼ"),
  ('M', "ḾṀṂ"),
  ('N', "ÑŃŅŇǸṄṆṈṊ"),
  ('O', "ÒÓÔÕÖŌŎŐƠǑǪǬȌȎȪȬȮȰṌṎṐṒỌỎỐỒỔỖỘỚỜỞỠỢ"),
  ('P', "ṔṖ"),
  ('R', "ŔŖŘȐȒṘṚṜṞ"),
  ('S', "ŚŜŞŠȘṠṢṤṦṨ"),
  ('T', "ŢŤȚṪṬṮṰ"),
  ('U', "ÙÚÛÜŨŪŬŮŰŲƯǓǕǗǙǛȔȖṲṴṶṸṺỤỦỨỪỬỮỰ"),
  ('V', "ṼṾ"),
  ('W', "ŴẀẂẄẆẈ"),
  ('X', "ẊẌ"),
  ('Y', "ÝŶŸȲẎỲỴỶỸ"),
  ('Z', "ŹŻŽẐẒẔ"),
  ('\u0060', "\u1fef"),
  ('a', "àáâãäåāăąǎǟǡǻȁȃȧḁạảấầẩẫậắằẳẵặ"),
  ('b', "ḃḅḇ"),
  ('c', "çćĉċčḉ"),
  ('d', "ďḋḍḏḑḓ"),
  ('e', "èéêëēĕėęěȅȇȩḕḗḙḛḝẹẻẽếềểễệ"),
  ('f', "ḟ"),
  ('g', "ĝğġģǧǵḡ"),
  ('h', "ĥȟḣḥḧḩḫẖ"),
  ('i', "ìíîïĩīĭįǐȉȋḭḯỉị"),
  ('j', "ĵǰ"),
  ('k', "ķǩḱḳḵ"),
  ('l', "ĺļľḷḹḻḽ"),
  ('m', "ḿṁṃ"),
  ('n', "ñńņňǹṅṇṉṋ"),
  ('o', "òóôõöōŏőơǒǫǭȍȏȫȭȯȱṍṏṑṓọỏốồổỗộớờởỡợ"),
  ('p', "ṕṗ"),
  ('r', "ŕŗřȑȓṙṛṝṟ"),
  ('s', "śŝşšșṡṣṥṧṩ"),
  ('t', "ţťțṫṭṯṱẗ"),
  ('u', "ùúûüũūŭůűųưǔǖǘǚǜȕȗṳṵṷṹṻụủứừửữự"),
  ('v', "ṽṿ"),
  ('w', "ŵẁẃẅẇẉẘ"),
  ('x', "ẋẍ"),
  ('y', "ýÿŷȳẏẙỳỵỷỹ"),
  ('z', "źżžẑẓẕ"),
  ('\u00a8', "\u0385\u1fc1\u1fed\u1fee"),
  ('\u00b4', "\u1ffd"),
  ('\u00b7', "\u0387"),
  ('Æ', "ǢǼ"),
  ('Ø', "Ǿ"),
  ('æ', "ǣǽ"),
  ('ø', "ǿ"),
  ('ſ', "ẛ"),
  ('Ʒ', "Ǯ"),
  ('ʒ', "ǯ"),
  ('ʹ', "\u0374"),
  ('Α', "ΆἈἉἊἋἌἍἎἏᾈᾉᾊᾋᾌᾍᾎᾏᾸᾹᾺ\u1fbbᾼ"),
  ('Ε', "ΈἘἙἚἛἜἝῈ\u1fc9"),
  ('Η', "ΉἨἩἪἫἬἭἮἯᾘᾙᾚᾛᾜᾝᾞᾟῊ\u1fcbῌ"),
  ('Ι', "ΊΪἸἹἺἻἼἽἾἿῘῙῚ\u1fdb"),
  ('Ο', "ΌὈὉὊὋὌὍῸ\u1ff9"),
  ('Ρ', "Ῥ"),
  ('Υ', "ΎΫὙὛὝὟῨῩῪ\u1feb"),
  ('Ω', "ΏὨὩὪὫὬὭὮὯᾨᾩᾪᾫᾬᾭᾮᾯῺ\u1ffbῼ\u2126"),
  ('α', "άἀἁἂἃἄἅἆἇὰ\u1f71ᾀᾁᾂᾃᾄᾅᾆᾇᾰᾱᾲᾳᾴᾶᾷ"),
  ('ε', "έἐἑἒἓἔἕὲ\u1f73"),
  ('η', "ήἠἡἢἣἤἥἦἧὴ\u1f75ᾐᾑᾒᾓᾔᾕᾖᾗῂῃῄῆῇ"),
  ('ι', "ΐίϊἰἱἲἳἴἵἶἷὶ\u1f77\u1fbeῐῑῒ\u1fd3ῖῗ"),
  ('ο', "όὀὁὂὃὄὅὸ\u1f79"),
  ('ρ', "ῤῥ"),
  ('υ', "ΰϋύὐὑὒὓὔὕὖὗὺ\u1f7bῠῡῢ\u1fe3ῦῧ"),
  ('ω', "ώὠὡὢὣὤὥὦὧὼ\u1f7dᾠᾡᾢᾣᾤᾥᾦᾧῲῳῴῶῷ"),
  ('ϒ', "ϓϔ"),
  ('І', "Ї"),
  ('А', "ӐӒ"),
  ('Г', "Ѓ"),
  ('Е', "ЀЁӖ"),
  ('Ж', "ӁӜ"),
  ('З', "Ӟ"),
  ('И', "ЍЙӢӤ"),
  ('К', "Ќ"),
  ('О', "Ӧ"),
  ('У', "ЎӮӰӲ"),
  ('Ч', "Ӵ"),
  ('Ы', "Ӹ"),
  ('Э', "Ӭ"),
  ('а', "ӑӓ"),
  ('г', "ѓ"),
  ('е', "ѐёӗ"),
  ('ж', "ӂӝ"),
  ('з', "ӟ"),
  ('и', "йѝӣӥ"),
  ('к', "ќ"),
  ('о', "ӧ"),
  ('у', "ўӯӱӳ"),
  ('ч', "ӵ"),
  ('ы', "ӹ"),
  ('э', "ӭ"),
  ('і', "ї"),
  ('Ѵ', "Ѷ"),
  ('ѵ', "ѷ"),
  ('Ә', "Ӛ"),
  ('ә', "ӛ"),
  ('Ө', "Ӫ"),
  ('ө', "ӫ"),
  ('א', "\ufb2e\ufb2f\ufb30"),
  ('ב', "\ufb31\ufb4c"),
  ('ג', "\ufb32"),
  ('ד', "\ufb33"),
  ('ה', "\ufb34"),
  ('ו', "\ufb35\ufb4b"),
  ('ז', "\ufb36"),
  ('ט', "\ufb38"),
  ('י', "\ufb1d\ufb39"),
  ('ך', "\ufb3a"),
  ('כ', "\ufb3b\ufb4d"),
  ('ל', "\ufb3c"),
  ('מ', "\ufb3e"),
  ('נ', "\ufb40"),
  ('ס', "\ufb41"),
  ('ף', "\ufb43"),
  ('פ', "\ufb44\ufb4e"),
  ('צ', "\ufb46"),
  ('ק', "\ufb47"),
  ('ר', "\ufb48"),
  ('ש', "\ufb2a\ufb2b\ufb2c\ufb2d\ufb49"),
  ('ת', "\ufb4a"),
  ('ײ', "\ufb1f"),
  ('ا', "آأإ"),
  ('و', "ؤ"),
  ('ي', "ئ"),
  ('ہ', "ۂ"),
  ('ے', "ۓ"),
  ('ە', "ۀ"),
  ('क', "\u0958"),
  ('ख', "\u0959"),
  ('ग', "\u095a"),
  ('ज', "\u095b"),
  ('ड', "\u095c"),
  ('ढ', "\u095d"),
  ('न', "ऩ"),
  ('फ', "\u095e"),
  ('य', "\u095f"),
  ('र', "ऱ"),
  ('ळ', "ऴ"),
  ('ড', "\u09dc"),
  ('ঢ', "\u09dd"),
  ('য', "\u09df"),
  ('ਖ', "\u0a59"),
  ('ਗ', "\u0a5a"),
  ('ਜ', "\u0a5b"),
  ('ਫ', "\u0a5e"),
  ('ਲ', "\u0a33"),
  ('ਸ', "\u0a36"),
  ('ଡ', "\u0b5c"),
  ('ଢ', "\u0b5d"),
  ('ஒ', "ஔ"),
  ('ཀ', "\u0f69"),
  ('ག', "\u0f43"),
  ('ཌ', "\u0f4d"),
  ('ད', "\u0f52"),
  ('བ', "\u0f57"),
  ('ཛ', "\u0f5c"),
  ('ဥ', "ဦ"),
  ('ᬅ', "ᬆ"),
  ('ᬇ', "ᬈ"),
  ('ᬉ', "ᬊ"),
  ('ᬋ', "ᬌ"),
  ('ᬍ', "ᬎ"),
  ('ᬑ', "ᬒ"),
  ('\u1fbf', "\u1fcd\u1fce\u1fcf"),
  ('\u1ffe', "\u1fdd\u1fde\u1fdf"),
  ('\u2002', "\u2000"),
  ('\u2003', "\u2001"),
  ('\u2190', "\u219a"),
  ('\u2192', "\u219b"),
  ('\u2194', "\u21ae"),
  ('\u21d0', "\u21cd"),
  ('\u21d2', "\u21cf"),
  ('\u21d4', "\u21ce"),
  ('\u2203', "\u2204"),
  ('\u2208', "\u2209"),
  ('\u220b', "\u220c"),
  ('\u2223', "\u2224"),
  ('\u2225', "\u2226"),
  ('\u223c', "\u2241"),
  ('\u2243', "\u2244"),
  ('\u2245', "\u2247"),
  ('\u2248', "\u2249"),
  ('\u224d', "\u226d"),
  ('\u2261', "\u2262"),
  ('\u2264', "\u2270"),
  ('\u2265', "\u2271"),
  ('\u2272', "\u2274"),
  ('\u2273', "\u2275"),
  ('\u2276', "\u2278"),
  ('\u2277', "\u2279"),
  ('\u227a', "\u2280"),
  ('\u227b', "\u2281"),
  ('\u227c', "\u22e0"),
  ('\u227d', "\u22e1"),
  ('\u2282', "\u2284"),
  ('\u2283', "\u2285"),
  ('\u2286', "\u2288"),
  ('\u2287', "\u2289"),
  ('\u2291', "\u22e2"),
  ('\u2292', "\u22e3"),
  ('\u22a2', "\u22ac"),
  ('\u22a8', "\u22ad"),
  ('\u22a9', "\u22ae"),
  ('\u22ab', "\u22af"),
  ('\u22b2', "\u22ea"),
  ('\u22b3', "\u22eb"),
  ('\u22b4', "\u22ec"),
  ('\u22b5', "\u22ed"),
  ('\u2add', "\u2adc"),
  ('\u3008', "\u2329"),
  ('\u3009', "\u232a"),
  ('う', "ゔ"),
  ('か', "が"),
  ('き', "ぎ"),
  ('く', "ぐ"),
  ('け', "げ"),
  ('こ', "ご"),
  ('さ', "ざ"),
  ('し', "じ"),
  ('す', "ず"),
  ('せ', "ぜ"),
  ('そ', "ぞ"),
  ('た', "だ"),
  ('ち', "ぢ"),
  ('つ', "づ"),
  ('て', "で"),
  ('と', "ど"),
  ('は', "ばぱ"),
  ('ひ', "びぴ"),
  ('ふ', "ぶぷ"),
  ('へ', "べぺ"),
  ('ほ', "ぼぽ"),
  ('ゝ', "ゞ"),
  ('ウ', "ヴ"),
  ('カ', "ガ"),
  ('キ', "ギ"),
  ('ク', "グ"),
  ('ケ', "ゲ"),
  ('コ', "ゴ"),
  ('サ', "ザ"),
  ('シ', "ジ"),
  ('ス', "ズ"),
  ('セ', "ゼ"),
  ('ソ', "ゾ"),
  ('タ', "ダ"),
  ('チ', "ヂ"),
  ('ツ', "ヅ"),
  ('テ', "デ"),
  ('ト', "ド"),
  ('ハ', "バパ"),
  ('ヒ', "ビピ"),
  ('フ', "ブプ"),
  ('ヘ', "ベペ"),
  ('ホ', "ボポ"),
  ('ワ', "ヷ"),
  ('ヰ', "ヸ"),
  ('ヱ', "ヹ"),
  ('ヲ', "ヺ"),
  ('ヽ', "ヾ"),
  ('𑂙', "𑂚"),
  ('𑂛', "𑂜"),
  ('𑂥', "𑂫"),
  ('𝅗', "𝅗𝅥"),
  ('𝅘', "𝅘𝅥𝅘𝅥𝅮𝅘𝅥𝅯𝅘𝅥𝅰𝅘𝅥𝅱𝅘𝅥𝅲"),
  ('𝆹', "𝆹𝅥𝆹𝅥𝅮𝆹𝅥𝅯"),
  ('𝆺', "𝆺𝅥𝆺𝅥𝅮𝆺𝅥𝅯")]

def baseLetter (c : Char) : Char :=
  if c.toNat < 0x80 then c
  else ((accentedForms.find? fun entry => entry.2.toList.contains c).map Prod.fst).getD c

def unaccented (c : Char) : List Char :=
  if isMark c then [] else [baseLetter c]

theorem unaccented_of_ascii {c : Char} (h : c.toNat < 0x80) : unaccented c = [c] := by
  simp [unaccented, baseLetter, isMark_of_ascii h, h]

end Macromark.Text
