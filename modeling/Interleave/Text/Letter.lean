import Interleave.Text.Basic

set_option autoImplicit false

namespace Interleave.Text

def alphabetic : Ranges := .ofCodes [
  0x18112121111E4F596124E12CE1829B11AB12C11131161142212A3D11AE111751E1C479A13F12F51411A15F3A63A189,
  0x1D1F43128119C6731C1A5A1817713851B7392B2B23851421949381CD1D68281231A341841811CE1E717851B3D443B,
  0x21311935121712E13119131B629114714222454212121712E224613411A21C51241181122221834311712E2221812B,
  0x1831311832812F1311D5816133133541C3332321112341336122811D512421922221835121712E2221813442D41F13,
  0x1D22A1811161872111913832A13162E5745113131182591311D1C31D41352183131183511A12F13118143C4221312,
  0x15924111724159D15B215114E241A1882852116F18B4C12842B44C1187F14841E161152312B111381511126B16757A,
  0x55B71B918B1411E2B26C1C21311D1C2C1C2D1B2C71B319B53A129219DC3621AE28284D18B2417911F2411172414924,
  0x2161459325B51B24C1A32E6F1E1B15C1A425A6B1811F16C6931B22F16A2C27F43C6E3A45C1B523E2F1941C13F1A18E,
  0x5421B14111111653111A21411CD1D2811D11EC71351D46243713311716D23F1111111182624E2624AE1B4A2B388513,
  0x15B5411BA1361AE45257193937AD15F481717171717171717192F281778215114E1C23463CD3CAE6C1CDD5929145,
  0x1A311365C1118C1C6C384912D2C1AA21CF2194F1E931855F2C21A28349D25E18B5BA9D1881CF881888286848291BE,
  0x28C8C6942F1C2DECC2D1FB61E15B171719626261B42282338111118D32F2A1E196F151A282811F1C16B33D1D4B549,
  0x1E21F1212B13A11C4B326262631B91B3A63A4C28F151EC1C586E21882A5DB491DC1212111511D11C551C74E1DA25DE,
  0x1A2E194EF1C6C321711F11B121711F11B1C6C185844C44C2A2BE5A511844C23E55B53E1D485F6933D49B6D18D1FB4A,
  0x1A6E3B3C1184B3D33D5A3D13118521418826784E3A63A1A2E1A212B1893F192F1A2F213215C112618D1915A163818,
  0x391D119791A55B18E192F3B2D5E2A5A2E1811A3D336A62823215A3FA2F5133C4A581D6B1D6B6F1991DE2A1D2B1A2E,
  0x112111A3C75161322221835121712E22218142F7971A11F1411177E46124A12A4B1111A2194118819134B184296B2F,
  0x118212183F1881CF792F972D1E23B18F126E7B13117F4A639726E2F8112218A3E32C413118A5C1113214112111A14E,
  0x22113121135C12171991E12E23E6911715D1193F491B8181CF1992A15198291A26B3B2111625E2181BD4222213E12,
  0x3BA95F1DAF9198F57EBB3962928E81F1C9599C38C291DF1CE1EBA19F11DF3359129192F48C5C2F1141214D121638,
  0x171428FFD1EB1C948591EBAE1971C11218829779419B5C39239481883AB5D6E82B52D3F428682A3E2919F293F718F9,
  0x25AC1731151413C17118241189171111C14222122118F11AD1BDC9141A71931D51DB4C8C69C1841E1233D11F4CB12,
  0x39F123E3CC3C7CC5C2A3E58912871A5D1E81497E551217229173AD663F3CEC1813913F13913F13913F13913F139139,
  0x1114141714211211111111112112131111114161111411A11211213B142AEC131318C7B38D11F1214173C82182E13F,
  0x28CDA519D9B2FCA18BE4ECA19DE1F1ECE921BA9E218CBE481ABBC879EE3A63A63A19EC29151352911A]

def isLetter (c : Char) : Bool := alphabetic.has c

end Interleave.Text
