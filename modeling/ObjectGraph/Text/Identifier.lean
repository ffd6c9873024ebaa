import ObjectGraph.Text.Printable

/-!
# `Text.Identifier` — the characters of identifiers

The properties `XID_Start` and `XID_Continue` of Unicode 18 beyond ASCII, as ranges, each by its
first code point and its length. Every character that may begin an identifier may also go on with
one. The other tables know Unicode 17: a character may begin an identifier and yet be unassigned to
them.

Contents:
* the table of beginnings, in four parts, and `isIdentifierStart`;
* the table of the characters that may only go on, in two parts, and `isIdentifierPart`.
-/

namespace ObjectGraph.Text

/-- Characters that may begin an identifier, from U+00AA to U+1256. -/
def startLow : List (Nat × Nat) := [
  (0xAA, 1), (0xB5, 1), (0xBA, 1), (0xC0, 23), (0xD8, 31), (0xF8, 458), (0x2C6, 12), (0x2E0, 5),
  (0x2EC, 1), (0x2EE, 1), (0x370, 5), (0x376, 2), (0x37B, 3), (0x37F, 1), (0x386, 1), (0x388, 3),
  (0x38C, 1), (0x38E, 20), (0x3A3, 83), (0x3F7, 139), (0x48A, 166), (0x531, 38), (0x558, 2),
  (0x560, 41), (0x5D0, 27), (0x5EF, 4), (0x620, 43), (0x66E, 2), (0x671, 99), (0x6D5, 1),
  (0x6E5, 2), (0x6EE, 2), (0x6FA, 3), (0x6FF, 1), (0x710, 1), (0x712, 30), (0x74D, 89), (0x7B1, 1),
  (0x7CA, 33), (0x7F4, 2), (0x7FA, 1), (0x800, 22), (0x81A, 1), (0x824, 1), (0x828, 1), (0x840, 25),
  (0x860, 11), (0x870, 24), (0x889, 7), (0x8A0, 42), (0x904, 54), (0x93D, 1), (0x950, 1),
  (0x958, 10), (0x971, 16), (0x985, 8), (0x98F, 2), (0x993, 22), (0x9AA, 7), (0x9B2, 1), (0x9B6, 4),
  (0x9BD, 1), (0x9CE, 1), (0x9DC, 2), (0x9DF, 3), (0x9F0, 2), (0x9FC, 1), (0xA05, 6), (0xA0F, 2),
  (0xA13, 22), (0xA2A, 7), (0xA32, 2), (0xA35, 2), (0xA38, 2), (0xA59, 4), (0xA5E, 1), (0xA72, 3),
  (0xA85, 9), (0xA8F, 3), (0xA93, 22), (0xAAA, 7), (0xAB2, 2), (0xAB5, 5), (0xABD, 1), (0xAD0, 1),
  (0xAE0, 2), (0xAF9, 1), (0xB05, 8), (0xB0F, 2), (0xB13, 22), (0xB2A, 7), (0xB32, 2), (0xB35, 5),
  (0xB3D, 1), (0xB5C, 2), (0xB5F, 3), (0xB71, 1), (0xB83, 1), (0xB85, 6), (0xB8E, 3), (0xB92, 4),
  (0xB99, 2), (0xB9C, 1), (0xB9E, 2), (0xBA3, 2), (0xBA8, 3), (0xBAE, 12), (0xBD0, 1), (0xC05, 8),
  (0xC0E, 3), (0xC12, 23), (0xC2A, 16), (0xC3D, 1), (0xC58, 3), (0xC5C, 2), (0xC60, 2), (0xC80, 1),
  (0xC85, 8), (0xC8E, 3), (0xC92, 23), (0xCAA, 10), (0xCB5, 5), (0xCBD, 1), (0xCDC, 3), (0xCE0, 2),
  (0xCF1, 2), (0xD04, 9), (0xD0E, 3), (0xD12, 41), (0xD3D, 1), (0xD4E, 1), (0xD54, 3), (0xD5F, 3),
  (0xD7A, 6), (0xD85, 18), (0xD9A, 24), (0xDB3, 9), (0xDBD, 1), (0xDC0, 7), (0xE01, 48), (0xE32, 1),
  (0xE40, 7), (0xE81, 2), (0xE84, 1), (0xE86, 5), (0xE8C, 24), (0xEA5, 1), (0xEA7, 10), (0xEB2, 1),
  (0xEBD, 1), (0xEC0, 5), (0xEC6, 1), (0xEDC, 4), (0xF00, 1), (0xF40, 8), (0xF49, 36), (0xF88, 5),
  (0x1000, 43), (0x103F, 1), (0x1050, 6), (0x105A, 4), (0x1061, 1), (0x1065, 2), (0x106E, 3),
  (0x1075, 13), (0x108E, 1), (0x10A0, 38), (0x10C7, 1), (0x10CD, 1), (0x10D0, 43), (0x10FC, 333),
  (0x124A, 4), (0x1250, 7)]

/-- Characters that may begin an identifier, from U+1258 to U+D7A3. -/
def startMiddle : List (Nat × Nat) := [
  (0x1258, 1), (0x125A, 4), (0x1260, 41), (0x128A, 4), (0x1290, 33), (0x12B2, 4), (0x12B8, 7),
  (0x12C0, 1), (0x12C2, 4), (0x12C8, 15), (0x12D8, 57), (0x1312, 4), (0x1318, 67), (0x1380, 16),
  (0x13A0, 86), (0x13F8, 6), (0x1401, 620), (0x166F, 17), (0x1681, 26), (0x16A0, 75), (0x16EE, 11),
  (0x1700, 18), (0x171F, 19), (0x1740, 18), (0x1760, 13), (0x176E, 3), (0x1780, 52), (0x17D7, 1),
  (0x17DC, 1), (0x1820, 89), (0x1880, 41), (0x18AA, 1), (0x18B0, 70), (0x1900, 31), (0x1950, 30),
  (0x1970, 5), (0x1980, 44), (0x19B0, 26), (0x1A00, 23), (0x1A20, 53), (0x1AA7, 1), (0x1B05, 47),
  (0x1B45, 8), (0x1B83, 30), (0x1BAE, 2), (0x1BBA, 44), (0x1C00, 36), (0x1C4D, 3), (0x1C5A, 36),
  (0x1C80, 11), (0x1C90, 43), (0x1CBD, 3), (0x1CE9, 4), (0x1CEE, 6), (0x1CF5, 2), (0x1CFA, 1),
  (0x1D00, 192), (0x1E00, 278), (0x1F18, 6), (0x1F20, 38), (0x1F48, 6), (0x1F50, 8), (0x1F59, 1),
  (0x1F5B, 1), (0x1F5D, 1), (0x1F5F, 31), (0x1F80, 53), (0x1FB6, 7), (0x1FBE, 1), (0x1FC2, 3),
  (0x1FC6, 7), (0x1FD0, 4), (0x1FD6, 6), (0x1FE0, 13), (0x1FF2, 3), (0x1FF6, 7), (0x2071, 1),
  (0x207F, 1), (0x208F, 17), (0x2102, 1), (0x2107, 1), (0x210A, 10), (0x2115, 1), (0x2118, 6),
  (0x2124, 1), (0x2126, 1), (0x2128, 1), (0x212A, 16), (0x213C, 4), (0x2145, 5), (0x214E, 1),
  (0x2160, 41), (0x2C00, 229), (0x2CEB, 4), (0x2CF2, 2), (0x2D00, 38), (0x2D27, 1), (0x2D2D, 1),
  (0x2D30, 56), (0x2D6F, 1), (0x2D80, 23), (0x2DA0, 7), (0x2DA8, 7), (0x2DB0, 7), (0x2DB8, 7),
  (0x2DC0, 7), (0x2DC8, 7), (0x2DD0, 7), (0x2DD8, 7), (0x3005, 3), (0x3021, 9), (0x3031, 5),
  (0x3038, 5), (0x3041, 86), (0x309D, 3), (0x30A1, 90), (0x30FC, 4), (0x3105, 43), (0x3131, 94),
  (0x31A0, 32), (0x31F0, 16), (0x3400, 6592), (0x4E00, 22157), (0xA4D0, 46), (0xA500, 269),
  (0xA610, 16), (0xA62A, 2), (0xA640, 47), (0xA67F, 31), (0xA6A0, 80), (0xA717, 9), (0xA722, 103),
  (0xA78B, 86), (0xA7F1, 17), (0xA803, 3), (0xA807, 4), (0xA80C, 23), (0xA840, 52), (0xA882, 50),
  (0xA8F2, 6), (0xA8FB, 1), (0xA8FD, 2), (0xA90A, 28), (0xA930, 23), (0xA960, 29), (0xA984, 47),
  (0xA9CF, 1), (0xA9E0, 5), (0xA9E6, 10), (0xA9FA, 5), (0xAA00, 41), (0xAA40, 3), (0xAA44, 8),
  (0xAA60, 23), (0xAA7A, 1), (0xAA7E, 50), (0xAAB1, 1), (0xAAB5, 2), (0xAAB9, 5), (0xAAC0, 1),
  (0xAAC2, 1), (0xAADB, 3), (0xAAE0, 11), (0xAAF2, 3), (0xAB01, 6), (0xAB09, 6), (0xAB11, 6),
  (0xAB20, 7), (0xAB28, 7), (0xAB30, 43), (0xAB5C, 14), (0xAB70, 115), (0xAC00, 11172)]

/-- Characters that may begin an identifier, from U+D7B0 to U+1192F. -/
def startHigh : List (Nat × Nat) := [
  (0xD7B0, 23), (0xD7CB, 49), (0xF900, 366), (0xFA70, 106), (0xFB00, 7), (0xFB13, 5), (0xFB1D, 1),
  (0xFB1F, 10), (0xFB2A, 13), (0xFB38, 5), (0xFB3E, 1), (0xFB40, 2), (0xFB43, 2), (0xFB46, 108),
  (0xFBD3, 139), (0xFC64, 218), (0xFD50, 64), (0xFD92, 54), (0xFDF0, 10), (0xFE71, 1), (0xFE73, 1),
  (0xFE77, 1), (0xFE79, 1), (0xFE7B, 1), (0xFE7D, 1), (0xFE7F, 126), (0xFF21, 26), (0xFF41, 26),
  (0xFF66, 56), (0xFFA0, 31), (0xFFC2, 6), (0xFFCA, 6), (0xFFD2, 6), (0xFFDA, 3), (0x10000, 12),
  (0x1000D, 26), (0x10028, 19), (0x1003C, 2), (0x1003F, 15), (0x10050, 14), (0x10080, 123),
  (0x10140, 53), (0x10280, 29), (0x102A0, 49), (0x10300, 32), (0x1032D, 30), (0x10350, 38),
  (0x10380, 30), (0x103A0, 36), (0x103C8, 8), (0x103D1, 5), (0x10400, 158), (0x104B0, 36),
  (0x104D8, 36), (0x10500, 40), (0x10530, 52), (0x10570, 11), (0x1057C, 15), (0x1058C, 7),
  (0x10594, 2), (0x10597, 11), (0x105A3, 15), (0x105B3, 7), (0x105BB, 2), (0x105C0, 52),
  (0x10600, 311), (0x10740, 22), (0x10760, 8), (0x10780, 6), (0x10787, 42), (0x107B2, 9),
  (0x10800, 6), (0x10808, 1), (0x1080A, 44), (0x10837, 2), (0x1083C, 1), (0x1083F, 23),
  (0x10860, 23), (0x10880, 31), (0x108E0, 19), (0x108F4, 2), (0x10900, 22), (0x10920, 26),
  (0x10940, 26), (0x10980, 56), (0x109BE, 2), (0x10A00, 1), (0x10A10, 4), (0x10A15, 3),
  (0x10A19, 29), (0x10A60, 29), (0x10A80, 29), (0x10AC0, 8), (0x10AC9, 28), (0x10B00, 54),
  (0x10B40, 22), (0x10B60, 19), (0x10B80, 18), (0x10C00, 73), (0x10C80, 51), (0x10CC0, 51),
  (0x10D00, 36), (0x10D4A, 28), (0x10D6F, 23), (0x10E80, 42), (0x10EB0, 2), (0x10EC2, 6),
  (0x10F00, 29), (0x10F27, 1), (0x10F30, 22), (0x10F70, 18), (0x10FB0, 21), (0x10FE0, 23),
  (0x11003, 53), (0x11071, 2), (0x11075, 1), (0x11083, 45), (0x110D0, 25), (0x11103, 36),
  (0x11144, 1), (0x11147, 1), (0x11150, 35), (0x11176, 1), (0x11183, 48), (0x111C1, 4),
  (0x111DA, 1), (0x111DC, 1), (0x11200, 18), (0x11213, 25), (0x1123F, 2), (0x11280, 7),
  (0x11288, 1), (0x1128A, 4), (0x1128F, 15), (0x1129F, 10), (0x112B0, 47), (0x11305, 8),
  (0x1130F, 2), (0x11313, 22), (0x1132A, 7), (0x11332, 2), (0x11335, 5), (0x1133D, 1), (0x11350, 1),
  (0x1135D, 5), (0x11380, 10), (0x1138B, 1), (0x1138E, 1), (0x11390, 38), (0x113B7, 1),
  (0x113D1, 1), (0x113D3, 1), (0x11400, 53), (0x11447, 4), (0x1145F, 3), (0x11480, 48),
  (0x114C4, 2), (0x114C7, 1), (0x11580, 47), (0x115D8, 4), (0x11600, 48), (0x11644, 1),
  (0x11680, 43), (0x116B8, 1), (0x11700, 27), (0x11740, 7), (0x11800, 44), (0x118A0, 64),
  (0x118FF, 8), (0x11909, 1), (0x1190C, 8), (0x11915, 2), (0x11918, 24)]

/-- Characters that may begin an identifier, from U+1193F to U+3FC3F. -/
def startLast : List (Nat × Nat) := [
  (0x1193F, 1), (0x11941, 1), (0x119A0, 8), (0x119AA, 39), (0x119E1, 1), (0x119E3, 1), (0x11A00, 1),
  (0x11A0B, 40), (0x11A3A, 1), (0x11A50, 1), (0x11A5C, 46), (0x11A9D, 1), (0x11AB0, 73),
  (0x11BC0, 33), (0x11C00, 9), (0x11C0A, 37), (0x11C40, 1), (0x11C72, 30), (0x11D00, 7),
  (0x11D08, 2), (0x11D0B, 38), (0x11D46, 1), (0x11D60, 6), (0x11D67, 2), (0x11D6A, 32),
  (0x11D98, 1), (0x11DB0, 44), (0x11EE0, 19), (0x11F02, 1), (0x11F04, 13), (0x11F12, 34),
  (0x11FB0, 1), (0x12000, 922), (0x12400, 111), (0x12480, 196), (0x12550, 311), (0x12F90, 97),
  (0x13000, 1072), (0x13441, 6), (0x13460, 3995), (0x14400, 583), (0x16100, 30), (0x16800, 569),
  (0x16A40, 31), (0x16A70, 79), (0x16AD0, 30), (0x16B00, 48), (0x16B40, 4), (0x16B63, 21),
  (0x16B7D, 19), (0x16D40, 45), (0x16D80, 30), (0x16E40, 64), (0x16EA0, 25), (0x16EBB, 25),
  (0x16F00, 75), (0x16F50, 1), (0x16F93, 13), (0x16FE0, 2), (0x16FE3, 1), (0x16FF2, 5),
  (0x17000, 7382), (0x18CFF, 32), (0x18D80, 115), (0x18E00, 916), (0x1AFF0, 4), (0x1AFF5, 7),
  (0x1AFFD, 2), (0x1B000, 291), (0x1B132, 1), (0x1B150, 3), (0x1B155, 1), (0x1B164, 4),
  (0x1B170, 396), (0x1BC00, 107), (0x1BC70, 13), (0x1BC80, 9), (0x1BC90, 10), (0x1D400, 85),
  (0x1D456, 71), (0x1D49E, 2), (0x1D4A2, 1), (0x1D4A5, 2), (0x1D4A9, 4), (0x1D4AE, 12),
  (0x1D4BB, 1), (0x1D4BD, 7), (0x1D4C5, 65), (0x1D507, 4), (0x1D50D, 8), (0x1D516, 7),
  (0x1D51E, 28), (0x1D53B, 4), (0x1D540, 5), (0x1D546, 1), (0x1D54A, 7), (0x1D552, 367),
  (0x1D6C2, 25), (0x1D6DC, 31), (0x1D6FC, 25), (0x1D716, 31), (0x1D736, 25), (0x1D750, 31),
  (0x1D770, 25), (0x1D78A, 31), (0x1D7AA, 25), (0x1D7C4, 8), (0x1DF00, 31), (0x1DF25, 11),
  (0x1E030, 62), (0x1E100, 45), (0x1E137, 7), (0x1E14E, 1), (0x1E290, 30), (0x1E2C0, 44),
  (0x1E4D0, 28), (0x1E5D0, 30), (0x1E5F0, 1), (0x1E6C0, 31), (0x1E6E0, 3), (0x1E6E4, 2),
  (0x1E6E7, 7), (0x1E6F0, 5), (0x1E6FE, 2), (0x1E7E0, 7), (0x1E7E8, 4), (0x1E7ED, 2), (0x1E7F0, 15),
  (0x1E800, 197), (0x1E900, 68), (0x1E94B, 1), (0x1EE00, 4), (0x1EE05, 27), (0x1EE21, 2),
  (0x1EE24, 1), (0x1EE27, 1), (0x1EE29, 10), (0x1EE34, 4), (0x1EE39, 1), (0x1EE3B, 1), (0x1EE42, 1),
  (0x1EE47, 1), (0x1EE49, 1), (0x1EE4B, 1), (0x1EE4D, 3), (0x1EE51, 2), (0x1EE54, 1), (0x1EE57, 1),
  (0x1EE59, 1), (0x1EE5B, 1), (0x1EE5D, 1), (0x1EE5F, 1), (0x1EE61, 2), (0x1EE64, 1), (0x1EE67, 4),
  (0x1EE6C, 7), (0x1EE74, 4), (0x1EE79, 4), (0x1EE7E, 1), (0x1EE80, 10), (0x1EE8B, 17),
  (0x1EEA1, 3), (0x1EEA5, 5), (0x1EEAB, 17), (0x20000, 42720), (0x2A700, 10159), (0x2CEB0, 7473),
  (0x2EBF0, 622), (0x2F800, 542), (0x30000, 4939), (0x31350, 8490), (0x3D000, 11328)]

/-- Characters that may only go on with an identifier, from U+00B7 to U+A8D9. -/
def partLow : List (Nat × Nat) := [
  (0xB7, 1), (0x300, 112), (0x387, 1), (0x483, 5), (0x591, 45), (0x5BF, 1), (0x5C1, 2), (0x5C4, 2),
  (0x5C7, 3), (0x610, 11), (0x64B, 31), (0x670, 1), (0x6D6, 7), (0x6DF, 6), (0x6E7, 2), (0x6EA, 4),
  (0x6F0, 10), (0x711, 1), (0x730, 27), (0x7A6, 11), (0x7C0, 10), (0x7EB, 9), (0x7FD, 1),
  (0x816, 4), (0x81B, 9), (0x825, 3), (0x829, 5), (0x859, 3), (0x897, 9), (0x8CA, 24), (0x8E3, 33),
  (0x93A, 3), (0x93E, 18), (0x951, 7), (0x962, 2), (0x966, 10), (0x981, 3), (0x9BC, 1), (0x9BE, 7),
  (0x9C7, 2), (0x9CB, 3), (0x9D7, 1), (0x9E2, 2), (0x9E6, 10), (0x9FE, 1), (0xA01, 3), (0xA3C, 1),
  (0xA3E, 5), (0xA47, 2), (0xA4B, 3), (0xA51, 1), (0xA66, 12), (0xA75, 1), (0xA81, 3), (0xABC, 1),
  (0xABE, 8), (0xAC7, 3), (0xACB, 3), (0xAE2, 2), (0xAE6, 10), (0xAFA, 6), (0xB01, 3), (0xB3C, 1),
  (0xB3E, 7), (0xB47, 2), (0xB4B, 3), (0xB55, 3), (0xB62, 2), (0xB66, 10), (0xB82, 1), (0xBBE, 5),
  (0xBC6, 3), (0xBCA, 4), (0xBD7, 1), (0xBE6, 10), (0xC00, 5), (0xC3C, 1), (0xC3E, 7), (0xC46, 3),
  (0xC4A, 4), (0xC55, 2), (0xC62, 2), (0xC66, 10), (0xC81, 3), (0xCBC, 1), (0xCBE, 7), (0xCC6, 3),
  (0xCCA, 4), (0xCD5, 2), (0xCE2, 2), (0xCE6, 10), (0xCF3, 1), (0xD00, 4), (0xD3B, 2), (0xD3E, 7),
  (0xD46, 3), (0xD4A, 4), (0xD57, 1), (0xD62, 2), (0xD66, 10), (0xD81, 3), (0xDCA, 1), (0xDCF, 6),
  (0xDD6, 1), (0xDD8, 8), (0xDE6, 10), (0xDF2, 2), (0xE31, 1), (0xE33, 8), (0xE47, 8), (0xE50, 10),
  (0xEB1, 1), (0xEB3, 10), (0xEC8, 7), (0xED0, 10), (0xF18, 2), (0xF20, 10), (0xF35, 1), (0xF37, 1),
  (0xF39, 1), (0xF3E, 2), (0xF71, 20), (0xF86, 2), (0xF8D, 11), (0xF99, 36), (0xFC6, 1),
  (0x102B, 20), (0x1040, 10), (0x1056, 4), (0x105E, 3), (0x1062, 3), (0x1067, 7), (0x1071, 4),
  (0x1082, 12), (0x108F, 15), (0x135D, 3), (0x1369, 9), (0x1712, 4), (0x1732, 3), (0x1752, 2),
  (0x1772, 2), (0x17B4, 32), (0x17DD, 1), (0x17E0, 10), (0x180B, 3), (0x180F, 11), (0x18A9, 1),
  (0x1920, 12), (0x1930, 12), (0x1946, 10), (0x19D0, 11), (0x1A17, 5), (0x1A55, 10), (0x1A60, 29),
  (0x1A7F, 11), (0x1A90, 10), (0x1AB0, 14), (0x1ABF, 50), (0x1B00, 5), (0x1B34, 17), (0x1B50, 10),
  (0x1B6B, 9), (0x1B80, 3), (0x1BA1, 13), (0x1BB0, 10), (0x1BE6, 14), (0x1C24, 20), (0x1C40, 10),
  (0x1C50, 10), (0x1CD0, 3), (0x1CD4, 21), (0x1CED, 1), (0x1CF4, 1), (0x1CF7, 3), (0x1DC0, 64),
  (0x200C, 2), (0x203F, 2), (0x2054, 1), (0x20D0, 13), (0x20E1, 1), (0x20E5, 12), (0x2CEF, 3),
  (0x2D7F, 1), (0x2DE0, 32), (0x302A, 6), (0x3099, 2), (0x30FB, 1), (0xA620, 10), (0xA66F, 1),
  (0xA674, 10), (0xA69E, 2), (0xA6F0, 2), (0xA802, 1), (0xA806, 1), (0xA80B, 1), (0xA823, 5),
  (0xA82C, 1), (0xA880, 2), (0xA8B4, 18), (0xA8D0, 10)]

/-- Characters that may only go on with an identifier, from U+A8E0 to U+E01EF. -/
def partHigh : List (Nat × Nat) := [
  (0xA8E0, 18), (0xA8FF, 11), (0xA926, 8), (0xA947, 13), (0xA980, 4), (0xA9B3, 14), (0xA9D0, 10),
  (0xA9E5, 1), (0xA9F0, 10), (0xAA29, 14), (0xAA43, 1), (0xAA4C, 2), (0xAA50, 10), (0xAA7B, 3),
  (0xAAB0, 1), (0xAAB2, 3), (0xAAB7, 2), (0xAABE, 2), (0xAAC1, 1), (0xAAEB, 5), (0xAAF5, 2),
  (0xABE3, 8), (0xABEC, 2), (0xABF0, 10), (0xFB1E, 1), (0xFE00, 16), (0xFE20, 16), (0xFE33, 2),
  (0xFE4D, 3), (0xFF10, 10), (0xFF3F, 1), (0xFF65, 1), (0xFF9E, 2), (0x101FD, 1), (0x102E0, 1),
  (0x10376, 5), (0x104A0, 10), (0x10A01, 3), (0x10A05, 2), (0x10A0C, 4), (0x10A38, 3), (0x10A3F, 1),
  (0x10AE5, 2), (0x10D24, 4), (0x10D30, 10), (0x10D40, 10), (0x10D69, 5), (0x10EAB, 2),
  (0x10EF0, 16), (0x10F46, 11), (0x10F82, 4), (0x11000, 3), (0x11038, 15), (0x11066, 11),
  (0x11073, 2), (0x1107F, 4), (0x110B0, 11), (0x110C2, 1), (0x110F0, 10), (0x11100, 3),
  (0x11127, 14), (0x11136, 10), (0x11145, 2), (0x11173, 1), (0x11180, 3), (0x111B3, 14),
  (0x111C9, 4), (0x111CE, 12), (0x1122C, 12), (0x1123E, 1), (0x11241, 1), (0x112DF, 12),
  (0x112F0, 10), (0x11300, 4), (0x1133B, 2), (0x1133E, 7), (0x11347, 2), (0x1134B, 3), (0x11357, 1),
  (0x11362, 2), (0x11366, 7), (0x11370, 5), (0x113B8, 9), (0x113C2, 1), (0x113C5, 1), (0x113C7, 4),
  (0x113CC, 5), (0x113D2, 1), (0x113E1, 2), (0x11435, 18), (0x11450, 10), (0x1145E, 1),
  (0x114B0, 20), (0x114D0, 10), (0x115AF, 7), (0x115B8, 9), (0x115DC, 2), (0x11630, 17),
  (0x11650, 10), (0x116AB, 13), (0x116C0, 10), (0x116D0, 20), (0x1171D, 15), (0x11730, 10),
  (0x1182C, 15), (0x118E0, 10), (0x11930, 6), (0x11937, 2), (0x1193B, 4), (0x11940, 1),
  (0x11942, 2), (0x11950, 10), (0x119D1, 7), (0x119DA, 7), (0x119E4, 1), (0x11A01, 10),
  (0x11A33, 7), (0x11A3B, 4), (0x11A47, 1), (0x11A51, 11), (0x11A8A, 16), (0x11B60, 8),
  (0x11BF0, 10), (0x11C2F, 8), (0x11C38, 8), (0x11C50, 10), (0x11C92, 22), (0x11CA9, 14),
  (0x11D31, 6), (0x11D3A, 1), (0x11D3C, 2), (0x11D3F, 7), (0x11D47, 1), (0x11D50, 10), (0x11D8A, 5),
  (0x11D90, 2), (0x11D93, 5), (0x11DA0, 10), (0x11DE0, 10), (0x11EF3, 4), (0x11F00, 2),
  (0x11F03, 1), (0x11F34, 7), (0x11F3E, 5), (0x11F50, 11), (0x13440, 1), (0x13447, 15),
  (0x1611E, 28), (0x16A60, 10), (0x16AC0, 10), (0x16AF0, 5), (0x16B30, 7), (0x16B50, 10),
  (0x16D70, 10), (0x16DA0, 10), (0x16F4F, 1), (0x16F51, 55), (0x16F8F, 4), (0x16FE4, 1),
  (0x16FF0, 2), (0x1BC9D, 2), (0x1CCF0, 10), (0x1CF00, 46), (0x1CF30, 23), (0x1D127, 2),
  (0x1D165, 5), (0x1D16D, 6), (0x1D17B, 8), (0x1D185, 7), (0x1D1AA, 4), (0x1D242, 3), (0x1D7CE, 50),
  (0x1DA00, 55), (0x1DA3B, 50), (0x1DA75, 1), (0x1DA84, 1), (0x1DA9B, 5), (0x1DAA1, 15),
  (0x1E000, 7), (0x1E008, 17), (0x1E01B, 7), (0x1E023, 2), (0x1E026, 5), (0x1E08F, 1), (0x1E130, 7),
  (0x1E140, 10), (0x1E2AE, 1), (0x1E2EC, 14), (0x1E4EC, 14), (0x1E5EE, 2), (0x1E5F1, 10),
  (0x1E6E3, 1), (0x1E6E6, 1), (0x1E6EE, 2), (0x1E6F5, 1), (0x1E8D0, 7), (0x1E944, 7), (0x1E950, 10),
  (0x1FBF0, 10), (0xE0100, 240)]

/-- A character beyond ASCII that may begin an identifier. -/
def isWideStart (n : Nat) : Bool :=
  inRanges startLow n || inRanges startMiddle n || inRanges startHigh n || inRanges startLast n

/-- A character that may begin an identifier: a letter. -/
def isIdentifierStart (c : Char) : Bool := if c.toNat < 128 then c.isAlpha else isWideStart c.toNat

/-- A character an identifier may go on with: a letter, a digit, a low line, a mark. -/
def isIdentifierPart (c : Char) : Bool :=
  if c.toNat < 128 then c.isAlphanum || c == '_'
  else isWideStart c.toNat || inRanges partLow c.toNat || inRanges partHigh c.toNat

end ObjectGraph.Text
