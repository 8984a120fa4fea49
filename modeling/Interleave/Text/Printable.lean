import Interleave.Text.Basic

set_option autoImplicit false

namespace Interleave.Text

/-- Characters that show nothing on their own. A plain blank is shown; every other separator is
not. -/
def unprintable : Ranges := .ofCodes [
  0x3E11248412261181CD1282D5E111B1A29643B1912121115E326A24E12CE73C812C1117462181E819AA11C4A1BF480,
  0x43121D11222621134311712E222181213D21A73141841116F795A284851B1153911F713119143837195B1E11B1B93D,
  0x1F222612135121712E222181218171C421F1321118435121712E13119111C11321A71143834212121712E224611538,
  0x32F211223511A12F1311B11A71A4222132B43132812F131181362D2D13313321151C3332321112341336111B2A4312,
  0x2119211A111381511124D1D18181B21681C321A77621972111913832A1223A41A1342131352112591311B1E311A421,
  0x41592411172415F9215115811F162211D4283423922216145D4D1D1611869521512A4C11E111113B23848421A19115,
  0x61A51B61A61A3191B21187126C1F311D1E2A19232B1D2A71B933C11A882621AE63A33D518B2417911F241117241492,
  0x244821C193D118341A681AE1E61A61A1D6182111911783227931B63A45C1B525A317612432443F1A18E5114A2571B9,
  0x3829191322B1621E11F16D23F1111111182624E2624AE18838851231614711D11B1B25B57E31F5218681D113211786,
  0x3AE1C1B913A4A1BE49717171717171717192F1F2778215115D5235F923CAC2D1B2E1ABA429C7E4A31D13B22295F18,
  0x1A18C187861A4523914131292C3BD18621A82481A145F2C5BC196F3799DD168191AE11BE15B51CD41AE1286591283A,
  0x171719626261B182293811125223116B14821A21118131B2226591391741B11D12224216863E1C11B39184E11D381C,
  0x2BD428F154412B14B2E1A2828481A9A1212111513811551C74E1DA25DE1CC88488846942F1C2DECC61A341211ED47C,
  0x5A1E44D13E1A4E53E194C43B286933D28B5D5F131D11B835D4351FB4A1E21F1212B13A11C221D7173326262633F2,
  0x12B68191819812F213215C112618D1915A1638181A2E194EF1C6C321711F11B121711F11C1B6C185844C44C61A22BE,
  0x1838184E61A1C5A76B1D6B6F1991A871C473A53B23D36E191C64D481887197191A3D13141F5F22C4784E3B53B34952,
  0x14B182A19154C191A7391E412224691C12213E471F6E11192F2C3C4E442A2E191B2E18584F191862822135A13F3A82,
  0x12111A3C71C1322224111135121712E2221812181A1D315F61B11F1411177F2164233C12A1B2C1281241811196C1B3,
  0x21115B2B1D61A1B42112186B4C3B21246215F2CE1A18421211211621683E31112D113218784F2131132111F21114E1,
  0x611918426581A13B414185A21818E1A19314621513812118212181C1AB1CC121195F2F92F191421133B3C2C61A6218,
  0x61A71111244D121661A1912D4E121719B12171394833D1A6111E4E11961A1E4A1B8111311AF1A71991D19211D5E32,
  0x1A331C3E1DAF9198F57EBB3962928E81D1CB599C38C1B511DF1CE1EBB1D6A1F11AE2F32184C11F19422B3EE1A45C,
  0x48591EBAE1951E41881D1B78519B5C3923951BB38E7A6E82B52D1711A1A1F7681A173E61A11A941A13F718F93B8E,
  0x357C24F1A3EE7C1EC1BF291F2F66EC33FD7DC812121A71931D51DB4C8C69C1841E1233D11F4CB12171428FFD1EB1C9,
  0x18EA24CC25AC1731151413C17118241189171111C14222122118F11AD28F39191AF1C2C1C2C1FA1318A2D7D43E722E,
  0x214173C8219527121313F388141B23E3AE1A43C7A8151A45C2A3E588241A271A5D2AA7E48D663F29EC711E1186A46F,
  0x114141714211211111111112112131111114161111411A11211213B1438A7D19C18C1CA9241A41718C6819238D11F1,
  0x61A187841C1F141C63BA31D32931FB92BA61E271945C1D3D782DE1A4D11F11F21F1C1CC45C49E26C29151352911A1,
  0x4ECA19DE1F1ECE921BA9E218CBE481ABBC8288D1CF12AB71A41C2284117931B31D21E185B84F191E241C23E1858,
  0x3BCDE8E28CDA519D9B2FCA18BE]

def isPrintable (c : Char) : Bool := !unprintable.has c

def escapeChar (c : Char) : String :=
  if c = Char.ofNat 0 then "\\0"
  else if c = '\t' then "\\t"
  else if c = '\r' then "\\r"
  else if c = '\n' then "\\n"
  else if c = '\'' then "\\'"
  else if c = '\\' then "\\\\"
  else if isPrintable c then c.toString
  else "\\u\x7b" ++ hex c.toNat ++ "\x7d"

def quoteChar (c : Char) : String := "'" ++ escapeChar c ++ "'"

end Interleave.Text
