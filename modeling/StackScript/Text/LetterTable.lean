/-!
# Letters of Unicode: lower case forms, cased characters, characters without case of their own

Data of the character database of Unicode 17, as ranges of code points in increasing order. A range
of the two classes is given by its first code point and their number.

## Main definitions

* `lowercaseRuns`: the simple lower case mapping
* `casedRanges`, `caseIgnorableRanges`: the two classes that decide the form of a sigma at the end
  of a word
-/

namespace StackScript.Text

/-- A run of capitals: every `stride`-th code point from `first` on, up to `width` behind it, the
first of them with the lower case form `target` and each next one with the form that lies equally
far on. -/
structure LowercaseRun where
  first : Nat
  width : Nat
  stride : Nat
  target : Nat

/-- The simple lower case mapping of Unicode, apart from U+0130, whose form has two characters. -/
def lowercaseRuns : List LowercaseRun := [
  ⟨0x41, 25, 1, 0x61⟩, ⟨0xC0, 22, 1, 0xE0⟩, ⟨0xD8, 6, 1, 0xF8⟩, ⟨0x100, 46, 2, 0x101⟩,
  ⟨0x132, 4, 2, 0x133⟩, ⟨0x139, 14, 2, 0x13A⟩, ⟨0x14A, 44, 2, 0x14B⟩, ⟨0x178, 0, 1, 0xFF⟩,
  ⟨0x179, 4, 2, 0x17A⟩, ⟨0x181, 0, 1, 0x253⟩, ⟨0x182, 2, 2, 0x183⟩, ⟨0x186, 0, 1, 0x254⟩,
  ⟨0x187, 0, 1, 0x188⟩, ⟨0x189, 1, 1, 0x256⟩, ⟨0x18B, 0, 1, 0x18C⟩, ⟨0x18E, 0, 1, 0x1DD⟩,
  ⟨0x18F, 0, 1, 0x259⟩, ⟨0x190, 0, 1, 0x25B⟩, ⟨0x191, 0, 1, 0x192⟩, ⟨0x193, 0, 1, 0x260⟩,
  ⟨0x194, 0, 1, 0x263⟩, ⟨0x196, 0, 1, 0x269⟩, ⟨0x197, 0, 1, 0x268⟩, ⟨0x198, 0, 1, 0x199⟩,
  ⟨0x19C, 0, 1, 0x26F⟩, ⟨0x19D, 0, 1, 0x272⟩, ⟨0x19F, 0, 1, 0x275⟩, ⟨0x1A0, 4, 2, 0x1A1⟩,
  ⟨0x1A6, 0, 1, 0x280⟩, ⟨0x1A7, 0, 1, 0x1A8⟩, ⟨0x1A9, 0, 1, 0x283⟩, ⟨0x1AC, 0, 1, 0x1AD⟩,
  ⟨0x1AE, 0, 1, 0x288⟩, ⟨0x1AF, 0, 1, 0x1B0⟩, ⟨0x1B1, 1, 1, 0x28A⟩, ⟨0x1B3, 2, 2, 0x1B4⟩,
  ⟨0x1B7, 0, 1, 0x292⟩, ⟨0x1B8, 0, 1, 0x1B9⟩, ⟨0x1BC, 0, 1, 0x1BD⟩, ⟨0x1C4, 0, 1, 0x1C6⟩,
  ⟨0x1C5, 0, 1, 0x1C6⟩, ⟨0x1C7, 0, 1, 0x1C9⟩, ⟨0x1C8, 0, 1, 0x1C9⟩, ⟨0x1CA, 0, 1, 0x1CC⟩,
  ⟨0x1CB, 16, 2, 0x1CC⟩, ⟨0x1DE, 16, 2, 0x1DF⟩, ⟨0x1F1, 0, 1, 0x1F3⟩, ⟨0x1F2, 2, 2, 0x1F3⟩,
  ⟨0x1F6, 0, 1, 0x195⟩, ⟨0x1F7, 0, 1, 0x1BF⟩, ⟨0x1F8, 38, 2, 0x1F9⟩, ⟨0x220, 0, 1, 0x19E⟩,
  ⟨0x222, 16, 2, 0x223⟩, ⟨0x23A, 0, 1, 0x2C65⟩, ⟨0x23B, 0, 1, 0x23C⟩, ⟨0x23D, 0, 1, 0x19A⟩,
  ⟨0x23E, 0, 1, 0x2C66⟩, ⟨0x241, 0, 1, 0x242⟩, ⟨0x243, 0, 1, 0x180⟩, ⟨0x244, 0, 1, 0x289⟩,
  ⟨0x245, 0, 1, 0x28C⟩, ⟨0x246, 8, 2, 0x247⟩, ⟨0x370, 2, 2, 0x371⟩, ⟨0x376, 0, 1, 0x377⟩,
  ⟨0x37F, 0, 1, 0x3F3⟩, ⟨0x386, 0, 1, 0x3AC⟩, ⟨0x388, 2, 1, 0x3AD⟩, ⟨0x38C, 0, 1, 0x3CC⟩,
  ⟨0x38E, 1, 1, 0x3CD⟩, ⟨0x391, 16, 1, 0x3B1⟩, ⟨0x3A3, 8, 1, 0x3C3⟩, ⟨0x3CF, 0, 1, 0x3D7⟩,
  ⟨0x3D8, 22, 2, 0x3D9⟩, ⟨0x3F4, 0, 1, 0x3B8⟩, ⟨0x3F7, 0, 1, 0x3F8⟩, ⟨0x3F9, 0, 1, 0x3F2⟩,
  ⟨0x3FA, 0, 1, 0x3FB⟩, ⟨0x3FD, 2, 1, 0x37B⟩, ⟨0x400, 15, 1, 0x450⟩, ⟨0x410, 31, 1, 0x430⟩,
  ⟨0x460, 32, 2, 0x461⟩, ⟨0x48A, 52, 2, 0x48B⟩, ⟨0x4C0, 0, 1, 0x4CF⟩, ⟨0x4C1, 12, 2, 0x4C2⟩,
  ⟨0x4D0, 94, 2, 0x4D1⟩, ⟨0x531, 37, 1, 0x561⟩, ⟨0x10A0, 37, 1, 0x2D00⟩, ⟨0x10C7, 0, 1, 0x2D27⟩,
  ⟨0x10CD, 0, 1, 0x2D2D⟩, ⟨0x13A0, 79, 1, 0xAB70⟩, ⟨0x13F0, 5, 1, 0x13F8⟩, ⟨0x1C89, 0, 1, 0x1C8A⟩,
  ⟨0x1C90, 42, 1, 0x10D0⟩, ⟨0x1CBD, 2, 1, 0x10FD⟩, ⟨0x1E00, 148, 2, 0x1E01⟩, ⟨0x1E9E, 0, 1, 0xDF⟩,
  ⟨0x1EA0, 94, 2, 0x1EA1⟩, ⟨0x1F08, 7, 1, 0x1F00⟩, ⟨0x1F18, 5, 1, 0x1F10⟩, ⟨0x1F28, 7, 1, 0x1F20⟩,
  ⟨0x1F38, 7, 1, 0x1F30⟩, ⟨0x1F48, 5, 1, 0x1F40⟩, ⟨0x1F59, 6, 2, 0x1F51⟩, ⟨0x1F68, 7, 1, 0x1F60⟩,
  ⟨0x1F88, 7, 1, 0x1F80⟩, ⟨0x1F98, 7, 1, 0x1F90⟩, ⟨0x1FA8, 7, 1, 0x1FA0⟩, ⟨0x1FB8, 1, 1, 0x1FB0⟩,
  ⟨0x1FBA, 1, 1, 0x1F70⟩, ⟨0x1FBC, 0, 1, 0x1FB3⟩, ⟨0x1FC8, 3, 1, 0x1F72⟩, ⟨0x1FCC, 0, 1, 0x1FC3⟩,
  ⟨0x1FD8, 1, 1, 0x1FD0⟩, ⟨0x1FDA, 1, 1, 0x1F76⟩, ⟨0x1FE8, 1, 1, 0x1FE0⟩, ⟨0x1FEA, 1, 1, 0x1F7A⟩,
  ⟨0x1FEC, 0, 1, 0x1FE5⟩, ⟨0x1FF8, 1, 1, 0x1F78⟩, ⟨0x1FFA, 1, 1, 0x1F7C⟩, ⟨0x1FFC, 0, 1, 0x1FF3⟩,
  ⟨0x2126, 0, 1, 0x3C9⟩, ⟨0x212A, 0, 1, 0x6B⟩, ⟨0x212B, 0, 1, 0xE5⟩, ⟨0x2132, 0, 1, 0x214E⟩,
  ⟨0x2160, 15, 1, 0x2170⟩, ⟨0x2183, 0, 1, 0x2184⟩, ⟨0x24B6, 25, 1, 0x24D0⟩, ⟨0x2C00, 47, 1, 0x2C30⟩,
  ⟨0x2C60, 0, 1, 0x2C61⟩, ⟨0x2C62, 0, 1, 0x26B⟩, ⟨0x2C63, 0, 1, 0x1D7D⟩, ⟨0x2C64, 0, 1, 0x27D⟩,
  ⟨0x2C67, 4, 2, 0x2C68⟩, ⟨0x2C6D, 0, 1, 0x251⟩, ⟨0x2C6E, 0, 1, 0x271⟩, ⟨0x2C6F, 0, 1, 0x250⟩,
  ⟨0x2C70, 0, 1, 0x252⟩, ⟨0x2C72, 0, 1, 0x2C73⟩, ⟨0x2C75, 0, 1, 0x2C76⟩, ⟨0x2C7E, 1, 1, 0x23F⟩,
  ⟨0x2C80, 98, 2, 0x2C81⟩, ⟨0x2CEB, 2, 2, 0x2CEC⟩, ⟨0x2CF2, 0, 1, 0x2CF3⟩, ⟨0xA640, 44, 2, 0xA641⟩,
  ⟨0xA680, 26, 2, 0xA681⟩, ⟨0xA722, 12, 2, 0xA723⟩, ⟨0xA732, 60, 2, 0xA733⟩, ⟨0xA779, 2, 2, 0xA77A⟩,
  ⟨0xA77D, 0, 1, 0x1D79⟩, ⟨0xA77E, 8, 2, 0xA77F⟩, ⟨0xA78B, 0, 1, 0xA78C⟩, ⟨0xA78D, 0, 1, 0x265⟩,
  ⟨0xA790, 2, 2, 0xA791⟩, ⟨0xA796, 18, 2, 0xA797⟩, ⟨0xA7AA, 0, 1, 0x266⟩, ⟨0xA7AB, 0, 1, 0x25C⟩,
  ⟨0xA7AC, 0, 1, 0x261⟩, ⟨0xA7AD, 0, 1, 0x26C⟩, ⟨0xA7AE, 0, 1, 0x26A⟩, ⟨0xA7B0, 0, 1, 0x29E⟩,
  ⟨0xA7B1, 0, 1, 0x287⟩, ⟨0xA7B2, 0, 1, 0x29D⟩, ⟨0xA7B3, 0, 1, 0xAB53⟩, ⟨0xA7B4, 14, 2, 0xA7B5⟩,
  ⟨0xA7C4, 0, 1, 0xA794⟩, ⟨0xA7C5, 0, 1, 0x282⟩, ⟨0xA7C6, 0, 1, 0x1D8E⟩, ⟨0xA7C7, 2, 2, 0xA7C8⟩,
  ⟨0xA7CB, 0, 1, 0x264⟩, ⟨0xA7CC, 14, 2, 0xA7CD⟩, ⟨0xA7DC, 0, 1, 0x19B⟩, ⟨0xA7F5, 0, 1, 0xA7F6⟩,
  ⟨0xFF21, 25, 1, 0xFF41⟩, ⟨0x10400, 39, 1, 0x10428⟩, ⟨0x104B0, 35, 1, 0x104D8⟩,
  ⟨0x10570, 10, 1, 0x10597⟩, ⟨0x1057C, 14, 1, 0x105A3⟩, ⟨0x1058C, 6, 1, 0x105B3⟩,
  ⟨0x10594, 1, 1, 0x105BB⟩, ⟨0x10C80, 50, 1, 0x10CC0⟩, ⟨0x10D50, 21, 1, 0x10D70⟩,
  ⟨0x118A0, 31, 1, 0x118C0⟩, ⟨0x16E40, 31, 1, 0x16E60⟩, ⟨0x16EA0, 24, 1, 0x16EBB⟩,
  ⟨0x1E900, 33, 1, 0x1E922⟩]

/-- The cased characters that are not at the same time case-ignorable. -/
def casedRanges : List (Nat × Nat) := [
  (0x41, 26), (0x61, 26), (0xAA, 1), (0xB5, 1), (0xBA, 1), (0xC0, 23), (0xD8, 31), (0xF8, 195),
  (0x1BC, 4), (0x1C4, 208), (0x296, 26), (0x370, 4), (0x376, 2), (0x37B, 3), (0x37F, 1), (0x386, 1),
  (0x388, 3), (0x38C, 1), (0x38E, 20), (0x3A3, 83), (0x3F7, 139), (0x48A, 166), (0x531, 38),
  (0x560, 41), (0x10A0, 38), (0x10C7, 1), (0x10CD, 1), (0x10D0, 43), (0x10FD, 3), (0x13A0, 86),
  (0x13F8, 6), (0x1C80, 11), (0x1C90, 43), (0x1CBD, 3), (0x1D00, 44), (0x1D6B, 13), (0x1D79, 34),
  (0x1E00, 278), (0x1F18, 6), (0x1F20, 38), (0x1F48, 6), (0x1F50, 8), (0x1F59, 1), (0x1F5B, 1),
  (0x1F5D, 1), (0x1F5F, 31), (0x1F80, 53), (0x1FB6, 7), (0x1FBE, 1), (0x1FC2, 3), (0x1FC6, 7),
  (0x1FD0, 4), (0x1FD6, 6), (0x1FE0, 13), (0x1FF2, 3), (0x1FF6, 7), (0x2102, 1), (0x2107, 1),
  (0x210A, 10), (0x2115, 1), (0x2119, 5), (0x2124, 1), (0x2126, 1), (0x2128, 1), (0x212A, 4),
  (0x212F, 6), (0x2139, 1), (0x213C, 4), (0x2145, 5), (0x214E, 1), (0x2160, 32), (0x2183, 2),
  (0x24B6, 52), (0x2C00, 124), (0x2C7E, 103), (0x2CEB, 4), (0x2CF2, 2), (0x2D00, 38), (0x2D27, 1),
  (0x2D2D, 1), (0xA640, 46), (0xA680, 28), (0xA722, 78), (0xA771, 23), (0xA78B, 4), (0xA790, 77),
  (0xA7F5, 2), (0xA7FA, 1), (0xAB30, 43), (0xAB60, 9), (0xAB70, 80), (0xFB00, 7), (0xFB13, 5),
  (0xFF21, 26), (0xFF41, 26), (0x10400, 80), (0x104B0, 36), (0x104D8, 36), (0x10570, 11),
  (0x1057C, 15), (0x1058C, 7), (0x10594, 2), (0x10597, 11), (0x105A3, 15), (0x105B3, 7),
  (0x105BB, 2), (0x10C80, 51), (0x10CC0, 51), (0x10D50, 22), (0x10D70, 22), (0x118A0, 64),
  (0x16E40, 64), (0x16EA0, 25), (0x16EBB, 25), (0x1D400, 85), (0x1D456, 71), (0x1D49E, 2),
  (0x1D4A2, 1), (0x1D4A5, 2), (0x1D4A9, 4), (0x1D4AE, 12), (0x1D4BB, 1), (0x1D4BD, 7),
  (0x1D4C5, 65), (0x1D507, 4), (0x1D50D, 8), (0x1D516, 7), (0x1D51E, 28), (0x1D53B, 4),
  (0x1D540, 5), (0x1D546, 1), (0x1D54A, 7), (0x1D552, 340), (0x1D6A8, 25), (0x1D6C2, 25),
  (0x1D6DC, 31), (0x1D6FC, 25), (0x1D716, 31), (0x1D736, 25), (0x1D750, 31), (0x1D770, 25),
  (0x1D78A, 31), (0x1D7AA, 25), (0x1D7C4, 8), (0x1DF00, 10), (0x1DF0B, 20), (0x1DF25, 6),
  (0x1E900, 68), (0x1F130, 26), (0x1F150, 26), (0x1F170, 26)]

/-- The case-ignorable characters: marks, modifiers and the punctuation that stands inside words. -/
def caseIgnorableRanges : List (Nat × Nat) := [
  (0x27, 1), (0x2E, 1), (0x3A, 1), (0x5E, 1), (0x60, 1), (0xA8, 1), (0xAD, 1), (0xAF, 1), (0xB4, 1),
  (0xB7, 2), (0x2B0, 192), (0x374, 2), (0x37A, 1), (0x384, 2), (0x387, 1), (0x483, 7), (0x559, 1),
  (0x55F, 1), (0x591, 45), (0x5BF, 1), (0x5C1, 2), (0x5C4, 2), (0x5C7, 1), (0x5F4, 1), (0x600, 6),
  (0x610, 11), (0x61C, 1), (0x640, 1), (0x64B, 21), (0x670, 1), (0x6D6, 8), (0x6DF, 10), (0x6EA, 4),
  (0x70F, 1), (0x711, 1), (0x730, 27), (0x7A6, 11), (0x7EB, 11), (0x7FA, 1), (0x7FD, 1),
  (0x816, 24), (0x859, 3), (0x888, 1), (0x890, 2), (0x897, 9), (0x8C9, 58), (0x93A, 1), (0x93C, 1),
  (0x941, 8), (0x94D, 1), (0x951, 7), (0x962, 2), (0x971, 1), (0x981, 1), (0x9BC, 1), (0x9C1, 4),
  (0x9CD, 1), (0x9E2, 2), (0x9FE, 1), (0xA01, 2), (0xA3C, 1), (0xA41, 2), (0xA47, 2), (0xA4B, 3),
  (0xA51, 1), (0xA70, 2), (0xA75, 1), (0xA81, 2), (0xABC, 1), (0xAC1, 5), (0xAC7, 2), (0xACD, 1),
  (0xAE2, 2), (0xAFA, 6), (0xB01, 1), (0xB3C, 1), (0xB3F, 1), (0xB41, 4), (0xB4D, 1), (0xB55, 2),
  (0xB62, 2), (0xB82, 1), (0xBC0, 1), (0xBCD, 1), (0xC00, 1), (0xC04, 1), (0xC3C, 1), (0xC3E, 3),
  (0xC46, 3), (0xC4A, 4), (0xC55, 2), (0xC62, 2), (0xC81, 1), (0xCBC, 1), (0xCBF, 1), (0xCC6, 1),
  (0xCCC, 2), (0xCE2, 2), (0xD00, 2), (0xD3B, 2), (0xD41, 4), (0xD4D, 1), (0xD62, 2), (0xD81, 1),
  (0xDCA, 1), (0xDD2, 3), (0xDD6, 1), (0xE31, 1), (0xE34, 7), (0xE46, 9), (0xEB1, 1), (0xEB4, 9),
  (0xEC6, 1), (0xEC8, 7), (0xF18, 2), (0xF35, 1), (0xF37, 1), (0xF39, 1), (0xF71, 14), (0xF80, 5),
  (0xF86, 2), (0xF8D, 11), (0xF99, 36), (0xFC6, 1), (0x102D, 4), (0x1032, 6), (0x1039, 2),
  (0x103D, 2), (0x1058, 2), (0x105E, 3), (0x1071, 4), (0x1082, 1), (0x1085, 2), (0x108D, 1),
  (0x109D, 1), (0x10FC, 1), (0x135D, 3), (0x1712, 3), (0x1732, 2), (0x1752, 2), (0x1772, 2),
  (0x17B4, 2), (0x17B7, 7), (0x17C6, 1), (0x17C9, 11), (0x17D7, 1), (0x17DD, 1), (0x180B, 5),
  (0x1843, 1), (0x1885, 2), (0x18A9, 1), (0x1920, 3), (0x1927, 2), (0x1932, 1), (0x1939, 3),
  (0x1A17, 2), (0x1A1B, 1), (0x1A56, 1), (0x1A58, 7), (0x1A60, 1), (0x1A62, 1), (0x1A65, 8),
  (0x1A73, 10), (0x1A7F, 1), (0x1AA7, 1), (0x1AB0, 46), (0x1AE0, 12), (0x1B00, 4), (0x1B34, 1),
  (0x1B36, 5), (0x1B3C, 1), (0x1B42, 1), (0x1B6B, 9), (0x1B80, 2), (0x1BA2, 4), (0x1BA8, 2),
  (0x1BAB, 3), (0x1BE6, 1), (0x1BE8, 2), (0x1BED, 1), (0x1BEF, 3), (0x1C2C, 8), (0x1C36, 2),
  (0x1C78, 6), (0x1CD0, 3), (0x1CD4, 13), (0x1CE2, 7), (0x1CED, 1), (0x1CF4, 1), (0x1CF8, 2),
  (0x1D2C, 63), (0x1D78, 1), (0x1D9B, 101), (0x1FBD, 1), (0x1FBF, 3), (0x1FCD, 3), (0x1FDD, 3),
  (0x1FED, 3), (0x1FFD, 2), (0x200B, 5), (0x2018, 2), (0x2024, 1), (0x2027, 1), (0x202A, 5),
  (0x2060, 5), (0x2066, 10), (0x2071, 1), (0x207F, 1), (0x2090, 13), (0x20D0, 33), (0x2C7C, 2),
  (0x2CEF, 3), (0x2D6F, 1), (0x2D7F, 1), (0x2DE0, 32), (0x2E2F, 1), (0x3005, 1), (0x302A, 4),
  (0x3031, 5), (0x303B, 1), (0x3099, 6), (0x30FC, 3), (0xA015, 1), (0xA4F8, 6), (0xA60C, 1),
  (0xA66F, 4), (0xA674, 10), (0xA67F, 1), (0xA69C, 4), (0xA6F0, 2), (0xA700, 34), (0xA770, 1),
  (0xA788, 3), (0xA7F1, 4), (0xA7F8, 2), (0xA802, 1), (0xA806, 1), (0xA80B, 1), (0xA825, 2),
  (0xA82C, 1), (0xA8C4, 2), (0xA8E0, 18), (0xA8FF, 1), (0xA926, 8), (0xA947, 11), (0xA980, 3),
  (0xA9B3, 1), (0xA9B6, 4), (0xA9BC, 2), (0xA9CF, 1), (0xA9E5, 2), (0xAA29, 6), (0xAA31, 2),
  (0xAA35, 2), (0xAA43, 1), (0xAA4C, 1), (0xAA70, 1), (0xAA7C, 1), (0xAAB0, 1), (0xAAB2, 3),
  (0xAAB7, 2), (0xAABE, 2), (0xAAC1, 1), (0xAADD, 1), (0xAAEC, 2), (0xAAF3, 2), (0xAAF6, 1),
  (0xAB5B, 5), (0xAB69, 3), (0xABE5, 1), (0xABE8, 1), (0xABED, 1), (0xFB1E, 1), (0xFBB2, 17),
  (0xFE00, 16), (0xFE13, 1), (0xFE20, 16), (0xFE52, 1), (0xFE55, 1), (0xFEFF, 1), (0xFF07, 1),
  (0xFF0E, 1), (0xFF1A, 1), (0xFF3E, 1), (0xFF40, 1), (0xFF70, 1), (0xFF9E, 2), (0xFFE3, 1),
  (0xFFF9, 3), (0x101FD, 1), (0x102E0, 1), (0x10376, 5), (0x10780, 6), (0x10787, 42), (0x107B2, 9),
  (0x10A01, 3), (0x10A05, 2), (0x10A0C, 4), (0x10A38, 3), (0x10A3F, 1), (0x10AE5, 2), (0x10D24, 4),
  (0x10D4E, 1), (0x10D69, 5), (0x10D6F, 1), (0x10EAB, 2), (0x10EC5, 1), (0x10EFA, 6), (0x10F46, 11),
  (0x10F82, 4), (0x11001, 1), (0x11038, 15), (0x11070, 1), (0x11073, 2), (0x1107F, 3), (0x110B3, 4),
  (0x110B9, 2), (0x110BD, 1), (0x110C2, 1), (0x110CD, 1), (0x11100, 3), (0x11127, 5), (0x1112D, 8),
  (0x11173, 1), (0x11180, 2), (0x111B6, 9), (0x111C9, 4), (0x111CF, 1), (0x1122F, 3), (0x11234, 1),
  (0x11236, 2), (0x1123E, 1), (0x11241, 1), (0x112DF, 1), (0x112E3, 8), (0x11300, 2), (0x1133B, 2),
  (0x11340, 1), (0x11366, 7), (0x11370, 5), (0x113BB, 6), (0x113CE, 1), (0x113D0, 1), (0x113D2, 1),
  (0x113E1, 2), (0x11438, 8), (0x11442, 3), (0x11446, 1), (0x1145E, 1), (0x114B3, 6), (0x114BA, 1),
  (0x114BF, 2), (0x114C2, 2), (0x115B2, 4), (0x115BC, 2), (0x115BF, 2), (0x115DC, 2), (0x11633, 8),
  (0x1163D, 1), (0x1163F, 2), (0x116AB, 1), (0x116AD, 1), (0x116B0, 6), (0x116B7, 1), (0x1171D, 1),
  (0x1171F, 1), (0x11722, 4), (0x11727, 5), (0x1182F, 9), (0x11839, 2), (0x1193B, 2), (0x1193E, 1),
  (0x11943, 1), (0x119D4, 4), (0x119DA, 2), (0x119E0, 1), (0x11A01, 10), (0x11A33, 6), (0x11A3B, 4),
  (0x11A47, 1), (0x11A51, 6), (0x11A59, 3), (0x11A8A, 13), (0x11A98, 2), (0x11B60, 1), (0x11B62, 3),
  (0x11B66, 1), (0x11C30, 7), (0x11C38, 6), (0x11C3F, 1), (0x11C92, 22), (0x11CAA, 7), (0x11CB2, 2),
  (0x11CB5, 2), (0x11D31, 6), (0x11D3A, 1), (0x11D3C, 2), (0x11D3F, 7), (0x11D47, 1), (0x11D90, 2),
  (0x11D95, 1), (0x11D97, 1), (0x11DD9, 1), (0x11EF3, 2), (0x11F00, 2), (0x11F36, 5), (0x11F40, 1),
  (0x11F42, 1), (0x11F5A, 1), (0x13430, 17), (0x13447, 15), (0x1611E, 12), (0x1612D, 3),
  (0x16AF0, 5), (0x16B30, 7), (0x16B40, 4), (0x16D40, 3), (0x16D6B, 2), (0x16F4F, 1), (0x16F8F, 17),
  (0x16FE0, 2), (0x16FE3, 2), (0x16FF2, 2), (0x1AFF0, 4), (0x1AFF5, 7), (0x1AFFD, 2), (0x1BC9D, 2),
  (0x1BCA0, 4), (0x1CF00, 46), (0x1CF30, 23), (0x1D167, 3), (0x1D173, 16), (0x1D185, 7),
  (0x1D1AA, 4), (0x1D242, 3), (0x1DA00, 55), (0x1DA3B, 50), (0x1DA75, 1), (0x1DA84, 1),
  (0x1DA9B, 5), (0x1DAA1, 15), (0x1E000, 7), (0x1E008, 17), (0x1E01B, 7), (0x1E023, 2),
  (0x1E026, 5), (0x1E030, 62), (0x1E08F, 1), (0x1E130, 14), (0x1E2AE, 1), (0x1E2EC, 4),
  (0x1E4EB, 5), (0x1E5EE, 2), (0x1E6E3, 1), (0x1E6E6, 1), (0x1E6EE, 2), (0x1E6F5, 1), (0x1E6FF, 1),
  (0x1E8D0, 7), (0x1E944, 8), (0x1F3FB, 5), (0xE0001, 1), (0xE0020, 96), (0xE0100, 240)]

end StackScript.Text
