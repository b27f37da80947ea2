import AuriOS.Lib.Strings

/-!
# The font

`font_8x16` of `font.h`: sixteen rows of eight pixels for each of 128 characters.
-/

namespace AuriOS

/-- The initializers of `font_8x16`, with the code of the character and its rows from the top, a
byte each; the other characters are blank. -/
def fontGlyphs : List (ℕ × BitVec 128) :=
  [(0x20, 0x00000000000000000000000000000000), (0x21, 0x0000183C3C3C18181800181800000000),
   (0x22, 0x00666666240000000000000000000000), (0x23, 0x0000006C6CFE6C6C6CFE6C6C00000000),
   (0x24, 0x0010107CD6D07C16D67C101000000000), (0x27, 0x00181818300000000000000000000000),
   (0x28, 0x00000C18303030303030180C00000000), (0x29, 0x000030180C0C0C0C0C0C183000000000),
   (0x2A, 0x0000000000663CFF3C66000000000000), (0x2B, 0x000000000018187E1818000000000000),
   (0x2C, 0x00000000000000000018181830000000), (0x2D, 0x00000000000000FE0000000000000000),
   (0x2E, 0x00000000000000000000181800000000), (0x2F, 0x00000002060C183060C0800000000000),
   (0x30, 0x00007CC6C6CEDEF6E6C6C67C00000000), (0x31, 0x00001838781818181818187E00000000),
   (0x32, 0x00007CC6060C183060C0C6FE00000000), (0x33, 0x00007CC606063C060606C67C00000000),
   (0x34, 0x00000C1C3C6CCCFE0C0C0C1E00000000), (0x35, 0x0000FEC0C0FC06060606C67C00000000),
   (0x36, 0x00003860C0C0FCC6C6C6C67C00000000), (0x37, 0x0000FEC606060C183030303000000000),
   (0x38, 0x00007CC6C6C67CC6C6C6C67C00000000), (0x39, 0x00007CC6C6C67E0606060C7800000000),
   (0x3A, 0x00000000181800000018180000000000), (0x3B, 0x00000000181800000018183000000000),
   (0x3D, 0x00000000007E00007E00000000000000), (0x3F, 0x00007CC6C60C18181800181800000000),
   (0x40, 0x00007CC6C6DEDEDEDCC0C07C00000000), (0x41, 0x000010386CC6C6FEC6C6C6C600000000),
   (0x42, 0x0000FC6666667C66666666FC00000000), (0x43, 0x00003C66C2C0C0C0C0C2663C00000000),
   (0x44, 0x0000F86C6666666666666CF800000000), (0x45, 0x0000FE6662687868606266FE00000000),
   (0x46, 0x0000FE6662687868606060F000000000), (0x47, 0x00003C66C2C0C0DEC6C6663A00000000),
   (0x48, 0x0000C6C6C6C6FEC6C6C6C6C600000000), (0x49, 0x00003C18181818181818183C00000000),
   (0x4A, 0x00001E0C0C0C0C0CCCCCCC7800000000), (0x4B, 0x0000E666666C78786C6666E600000000),
   (0x4C, 0x0000F06060606060606266FE00000000), (0x4D, 0x0000C6EEFEFED6C6C6C6C6C600000000),
   (0x4E, 0x0000C6E6F6FEDECEC6C6C6C600000000), (0x4F, 0x00007CC6C6C6C6C6C6C6C67C00000000),
   (0x50, 0x0000FC6666667C60606060F000000000), (0x51, 0x00007CC6C6C6C6C6C6D6DE7C0C0E0000),
   (0x52, 0x0000FC6666667C6C666666E600000000), (0x53, 0x00007CC6C660380C06C6C67C00000000),
   (0x54, 0x0000FFDB991818181818183C00000000), (0x55, 0x0000C6C6C6C6C6C6C6C6C67C00000000),
   (0x56, 0x0000C6C6C6C6C6C6C66C381000000000), (0x57, 0x0000C6C6C6C6D6D6D6FEEE6C00000000),
   (0x58, 0x0000C6C66C7C38387C6CC6C600000000), (0x59, 0x0000C3C3663C18181818183C00000000),
   (0x5A, 0x0000FEC6860C183060C2C6FE00000000), (0x5B, 0x00003C30303030303030303C00000000),
   (0x5C, 0x00000080C06030180C06020000000000), (0x5D, 0x00003C0C0C0C0C0C0C0C0C3C00000000),
   (0x5F, 0x000000000000000000000000FF000000), (0x60, 0x0030180C000000000000000000000000),
   (0x61, 0x0000000000780C7CCCCCCC7600000000), (0x62, 0x0000E06060786C666666667C00000000),
   (0x63, 0x00000000007CC6C0C0C0C67C00000000), (0x64, 0x00001C0C0C3C6CCCCCCCCC7600000000),
   (0x65, 0x00000000007CC6FEC0C0C67C00000000), (0x66, 0x0000386C6460F060606060F000000000),
   (0x67, 0x000000000076CCCCCCCC7C0CCC780000), (0x68, 0x0000E060606C7666666666E600000000),
   (0x69, 0x00001818003818181818183C00000000), (0x6A, 0x00000606000E060606060666663C0000),
   (0x6B, 0x0000E06060666C78786C66E600000000), (0x6C, 0x00003818181818181818183C00000000),
   (0x6D, 0x0000000000ECFED6D6D6D6C600000000), (0x6E, 0x0000000000DC66666666666600000000),
   (0x6F, 0x00000000007CC6C6C6C6C67C00000000), (0x70, 0x0000000000DC666666667C6060F00000),
   (0x71, 0x000000000076CCCCCCCC7C0C0C1E0000), (0x72, 0x0000000000DC7666606060F000000000),
   (0x73, 0x00000000007CC660380CC67C00000000), (0x74, 0x0000103030FC30303030361C00000000),
   (0x75, 0x0000000000CCCCCCCCCCCC7600000000), (0x76, 0x0000000000C3C3C3C3663C1800000000),
   (0x77, 0x0000000000C6C6D6D6D6FE6C00000000), (0x78, 0x0000000000C66C3838386CC600000000),
   (0x79, 0x0000000000C6C6C6C6C67E060CF80000), (0x7A, 0x0000000000FECC183060C6FE00000000),
   (0x7B, 0x00000E18181870181818180E00000000), (0x7C, 0x00001818181800181818181800000000),
   (0x7D, 0x0000701818180E181818187000000000), (0x7E, 0x000076DC000000000000000000000000)]

/-- `font_8x16[c][row]`. -/
def font8x16 (c row : ℕ) : Byte := ((fontGlyphs.lookup c).getD 0).extractLsb' (8 * (15 - row)) 8

end AuriOS
