import WordMachine.Text.Bytes

/-!
# `Locale.Registry` — the subtags of language tags

Contents: `words`; `twoLetterLanguages`, `threeLetterLanguages`, `scripts`, `regions`,
`threeLetterRegions`, `regionNumbers`, `variants`, `irregular`.
-/

namespace WordMachine.Locale.Registry

/-- The words of a text, with one blank between them. -/
def words (text : Bytes) : List Bytes := text.splitOn Ascii.space

/-- Languages by two letters. -/
def twoLetterLanguages : List Bytes :=
  words (bytes "aa ab ae af ak am an ar as av ay az ba be bg bh bi bm bn bo br bs ca ce ch co cr cs "
    ++ bytes "cu cv cy da de dv dz ee el en eo es et eu fa ff fi fj fo fr fy ga gd gl gn gu gv ha "
    ++ bytes "he hi ho hr ht hu hy hz ia id ie ig ii ik in io is it iu iw ja ji jv jw ka kg ki kj "
    ++ bytes "kk kl km kn ko kr ks ku kv kw ky la lb lg li ln lo lt lu lv mg mh mi mk ml mn mo mr "
    ++ bytes "ms mt my na nb nd ne ng nl nn no nr nv ny oc oj om or os pa pi pl ps pt qu rm rn ro "
    ++ bytes "ru rw sa sc sd se sg sh si sk sl sm sn so sq sr ss st su sv sw ta te tg th ti tk tl "
    ++ bytes "tn to tr ts tt tw ty ug uk ur uz ve vi vo wa wo xh yi yo za zh zu")

/-- Languages by three letters: for each pair of first letters, from `aa` on, the third letters as bits
from that of `a` on. -/
def threeLetterLanguages : List Nat :=
  [0x2fffdff, 0x3fffdff, 0x3ffb0bb, 0x3dfebfb, 0x3573c1f, 0x216e5db, 0x3ffffff, 0xefdc3, 0x1cfff7f,
   0x258a141, 0x27fcdff, 0x3fffffd, 0x3fff7f7, 0x3ffffff, 0x28e3f7f, 0x3feffff, 0x20a3c4d, 0x3ffefdf,
   0x3ffffff, 0x3ffffdf, 0x35ffffd, 0x3c7d1b, 0x1fe75df, 0x801c52, 0x29ffddf, 0x208725e, 0x3feffff,
   0x1ffff7f, 0x37fffff, 0x3ffffff, 0x3ffffbf, 0x3ddffff, 0x3fff36f, 0x37fffff, 0x3fffcff, 0x3ffffef,
   0x3ffffef, 0x3eff7ff, 0x2f7ffff, 0x3fff77f, 0x3fffefb, 0x3ffdfdd, 0x3ffff6f, 0x3ffffff, 0x1ffffb7,
   0x3fff7ff, 0x3fdffff, 0x3fb7fff, 0x3dfdfff, 0x277ffe7, 0x2e6bfbf, 0x3ffffbf, 0x3ffffff, 0x17f6f4f,
   0x7fadc, 0x20673bc, 0x10c2c43, 0x1049, 0x445, 0x3fbfefb, 0x142b097, 0x126f591, 0x3bf7803,
   0x15c5f9d, 0xe6d55, 0xcf8dc7, 0x39fdeff, 0x194e177, 0x100008, 0x3efffff, 0x37ffeff, 0x31cf8dd,
   0x1bccf87, 0x2040, 0x8005b, 0x80, 0x5003, 0x82480, 0x3f7fffd, 0x179fb7b, 0x20004, 0x466359,
   0x2373dfc, 0x0, 0x2ce6ddf, 0xf67948, 0x3ffefef, 0x527f3f, 0x860c41, 0x3040, 0x1f67c7f, 0x17a6759,
   0x1efedb7, 0x8000, 0x0, 0x15f69d5, 0x16d92, 0x11ed58b, 0x3f7ffff, 0x1, 0x3560c01, 0x0, 0x112714b,
   0x6859, 0x1, 0x124444, 0x1060000, 0x0, 0x0, 0x111, 0x1805801, 0x100000, 0x288000, 0x1, 0x102dd51,
   0x90dc10, 0x2d4b553, 0xe378ef, 0x80000, 0x4100, 0x0, 0x4e05c1, 0x19c7dd0, 0x29e6082, 0x50008,
   0x2090, 0x4010, 0x80000, 0x4001, 0x11, 0x39effeb, 0x800, 0x40000, 0x0, 0x20000, 0x1100, 0x20000,
   0x0, 0x5aaa31, 0x0, 0x200400, 0x1022981, 0x108000, 0x142, 0x863108, 0x10, 0x40000, 0x10fd40d,
   0x40810, 0x0, 0x13b39be, 0x20000, 0x11, 0x0, 0x0, 0x0, 0x3ffffff, 0x3f7ffff, 0xa282c, 0x9f7ffe,
   0x3e51fef, 0x800400, 0x5a6c5b, 0xe6415, 0x38ff8df, 0x123400, 0x10e019, 0x724fdf, 0x3f338db,
   0x25b7fdf, 0x1ffffff, 0x2011, 0x22001, 0x3ff37cf, 0x44f850, 0x100101, 0x2ffffff, 0x106fa35,
   0xda337f, 0x800000, 0x302797b, 0x2101, 0x3ffffff, 0x146003, 0x80, 0x1042000, 0x211cb, 0x0,
   0x401000, 0x1020100, 0xca7feb, 0x100, 0x40491, 0x18000b, 0x3fff22b, 0x473d9, 0x16edf9f, 0x44000,
   0x0, 0x2fad415, 0x42882, 0x944100, 0x3febdfe, 0x202414, 0x4005, 0x0, 0xc00011, 0x0, 0x22100,
   0x11279db, 0x20881, 0x1e411f, 0x0, 0x1101433, 0x447852, 0x408102, 0x22100, 0x46214, 0x2fecd90,
   0x74dd53, 0x10e6900, 0xceadf, 0x520000, 0x4500, 0x500000, 0x1906591, 0x1a7ddd, 0x3ee5d1f, 0x1000,
   0x200002, 0x45400, 0x804, 0x804001, 0x2021180, 0x3ff7ebf, 0x5a7710, 0xc0000, 0x80041, 0x1a2dd2,
   0x0, 0x4412, 0x40100, 0x138185f, 0x20010, 0x105001, 0x40010, 0xc6290f, 0x40b49, 0x46004a, 0x822001,
   0x20000, 0x1a0003, 0x800, 0x0, 0x15efd8b, 0x2008, 0x100, 0x0, 0x1000011, 0x0, 0x3ffffcf, 0x3ffffdf,
   0x37dffff, 0x3ebfffd, 0x3fe7dff, 0x3f7fdff, 0x1ffdfbf, 0x3ffffff, 0x3fffeff, 0x39fffdf, 0x3ffdfff,
   0x3ffffff, 0x3ffffff, 0x3ffff7f, 0x37ffffd, 0x3fffffd, 0x3ffffff, 0x3feffbf, 0x2fffffe, 0x3ffffff,
   0x3ffffff, 0x3efffff, 0x3ffffff, 0x3ebff3f, 0x3ff7fff, 0x3feffbf, 0x2ffffdf, 0x3ff7f32, 0x598bc,
   0x1ffcb, 0x3ffffff, 0x2001, 0x21b7dc3, 0x1c3181, 0x3ffffff, 0xc08911, 0x11e7b9f, 0x95ff7f,
   0x1f3ffff, 0x2543bcb, 0x3dfffd7, 0x806011, 0x20000, 0x2287d45, 0x16ef95f, 0x21461c4, 0x37fffff,
   0x140d01, 0x4c58d1, 0x1000, 0x2001, 0x2002880, 0x2ffbffb, 0x3ffffaf, 0x3ffffff, 0x3ffbfff,
   0x37ffedf, 0x3ffffff, 0x3ffffff, 0x3dfff7e, 0x3dfffff, 0x3ff3fde, 0x3eeffbf, 0x2feeff7, 0x3fbf1ff,
   0x3ffffff, 0x3fffffd, 0x3ffffdf, 0x3fffff7, 0x3ffffff, 0x3fffffb, 0x1ffffff, 0x3bfffdf, 0x3ffecf9,
   0x27fffff, 0x3ffffff, 0x3fabeff, 0x3fbffdf, 0x3ffffff, 0x1ffffbf, 0x29fffff, 0x3ffffff, 0x3dbf7df,
   0x120809, 0x3ffbfff, 0x3fbf57f, 0x3ff7bff, 0x39e7b8b, 0x2ff77ff, 0x3f3775d, 0x2ffffff, 0x3ffffff,
   0x17ff7ff, 0x19469c2, 0x1097c40, 0x290bd73, 0x3fffdff, 0x396d758, 0x3fff7ff, 0x5080, 0xc25156,
   0x936d59, 0x1ffffff, 0x316150b, 0x220005, 0x1a5d00, 0x104101, 0x180401, 0x0, 0x140000, 0x104046,
   0x180000, 0x2011, 0x640146, 0x2b65d5f, 0x1a5419, 0xfbcd47, 0x9ee751, 0x22008, 0x1085401, 0x0,
   0x3fe7155, 0x9cc105, 0x3df7d1b, 0x3112, 0x8, 0x900, 0x0, 0x100100a, 0x1000, 0x3fffdff, 0x13ef9f6,
   0x42b7ff, 0x186005, 0x3a5dd5b, 0x811, 0x2142d49, 0x7a7dc8, 0x3fefaef, 0x80000, 0x16e0c3, 0x27e6dff,
   0x3df7fbf, 0x36fffdf, 0x36ffdf4, 0xffd11, 0x401011, 0x3dfddfd, 0x5ff9dd, 0x3ae181, 0x3dfd37f, 0x0,
   0x427043, 0x1000, 0x1943010, 0x2090, 0x3ffffff, 0x3ffffff, 0x3ffffff, 0x3ffffff, 0x3ffffff,
   0x3ffffff, 0x3ffffff, 0x3ffffff, 0x3ffffff, 0x3ffffff, 0x3ffffff, 0x3ffffff, 0x3ffffff, 0x3ffffff,
   0x3ffffff, 0x3ffffff, 0x3ffffff, 0x3ffffff, 0x3ffffff, 0x3ffffff, 0x3e7bd7f, 0x244fb95, 0xc1095,
   0x5be885, 0x8001, 0x0, 0x3e2f7ef, 0x8c02, 0x20, 0x2, 0x10c3b53, 0x0, 0x162001, 0x8040, 0x1a3823,
   0x40140, 0x481183, 0x0, 0x3dffdff, 0x42284a, 0x52f8ff, 0x82000, 0x0, 0x85100, 0x403d00, 0x401084,
   0x31de576, 0x0, 0x25c01, 0x400008, 0x100000, 0x0, 0x3ffffff, 0x3ffffdf, 0xfcedf3, 0xb76ef7,
   0x37fffff, 0x441012, 0x3debbdf, 0x37ff7df, 0x3fffffb, 0x5a985f, 0x3fff7ff, 0x3f6bfed, 0x3dfefff,
   0x3f7ff7f, 0x3fffd5f, 0x12ffd5f, 0x9d5781, 0x3fffdff, 0x3fffaff, 0x17ffff3, 0x3ef7f57, 0x41417,
   0x1ffdff7, 0x562012, 0x1c67d0f, 0x164a84f, 0x3ffffff, 0x3fcfffd, 0x3d5f5ff, 0x1bf7fdf, 0x3fffddf,
   0xa6100, 0x3fdefff, 0x3ff9dbd, 0x1fffffc, 0x54eb41, 0x2ff8c7b, 0x1ffbfef, 0x37bffff, 0x1effdff,
   0x3f7ffee, 0x3fabf75, 0x58f802, 0x3fffff7, 0x3fffbff, 0x37fffbe, 0x3ffffff, 0xdc7d19, 0x1dbf9fb,
   0x19d7351, 0x3beab91, 0x807a81, 0x21000, 0x1120901, 0x0, 0x101b51, 0x40000, 0x100, 0x1006093,
   0x2001, 0x240040, 0x100, 0x1778dc1, 0x1503537, 0x16f14b, 0x292b559, 0x2400, 0x200100, 0x0,
   0x3faf7ff, 0x148581, 0x128091, 0x21000, 0x890, 0x1, 0x0, 0x1, 0x42002, 0x136fbf1, 0x402, 0x0, 0x0,
   0x2f004, 0x0, 0xa0000, 0x0, 0x28287c, 0x400, 0x218fe01, 0x48000, 0x3d79fff, 0x9400, 0xa0800, 0x0,
   0x0, 0xc4001, 0x200900, 0x4000, 0x83000, 0x0, 0x1, 0x0, 0x0, 0x0, 0x3ffbfff, 0x6f9fb3, 0x101,
   0x1180648, 0x5ef1cc, 0x40, 0x1504143, 0x100441, 0x17a3ff6, 0x101, 0x1420009, 0xf671d1, 0xcc719f,
   0x150f55e, 0x467d7f, 0x4, 0x0, 0x2f6ddc2, 0x360541, 0x4015a2, 0x1ba380b, 0x0, 0x424003, 0x400000,
   0x1023102, 0x0, 0x17e7f43, 0x142b35b, 0x24080, 0x1014401, 0x1e1048, 0x0, 0x50314a, 0x205010,
   0x1062101, 0x80002, 0x3ffabff, 0x100000d, 0x3fffaef, 0x31b370b, 0x42f54c, 0x2eb7ffb, 0x0, 0x53315b,
   0x117bb9b, 0x17dbb9f, 0x187a0a, 0x46110, 0x4a4e19, 0xa1402, 0x1080e03, 0x8080, 0x3ffffff,
   0x1807b9b, 0x22800, 0x459, 0x13e2b15, 0x0, 0x569901, 0x40008, 0x1261bc9, 0x0, 0x10255c1, 0x1120953,
   0x8fc53, 0x150c4b, 0x10e3d42, 0x400, 0x0, 0x1445c13, 0x106b808, 0x1400000, 0x2dbbb7f, 0x80001,
   0x532041, 0x1101841, 0x120000, 0x0, 0x3ffd7ff, 0x580815, 0x81, 0x200, 0x30c1, 0x0, 0x23083,
   0xc06109, 0x2423c03, 0x0, 0x218c00b, 0x553211, 0x3ffffff, 0x40459, 0x75084, 0x3ffffff, 0x10,
   0x4e040, 0x121801, 0x19db850, 0x1003880, 0x0, 0x1, 0x800000, 0xa242, 0x201]

/-- Scripts. -/
def scripts : List Bytes :=
  words (bytes "Adlm Afak Aghb Ahom Arab Aran Armi Armn Avst Bali Bamu Bass Batk Beng Berf Bhks Blis "
    ++ bytes "Bopo Brah Brai Bugi Buhd Cakm Cans Cari Cham Cher Chrs Cirt Copt Cpmn Cprt Cyrl Cyrs "
    ++ bytes "Deva Diak Dogr Dsrt Dupl Egyd Egyh Egyp Elba Elym Ethi Gara Geok Geor Glag Gong Gonm "
    ++ bytes "Goth Gran Grek Gujr Gukh Guru Hanb Hang Hani Hano Hans Hant Hatr Hebr Hira Hluw Hmng "
    ++ bytes "Hmnp Hrkt Hung Inds Ital Jamo Java Jpan Jurc Kali Kana Kawi Khar Khmr Khoj Kits Knda "
    ++ bytes "Kore Kpel Krai Kthi Lana Laoo Latf Latg Latn Lepc Limb Lina Linb Lisu Loma Lyci Lydi "
    ++ bytes "Mahj Maka Mand Mani Marc Maya Medf Mend Merc Mero Mlym Modi Mong Moon Mroo Mtei Mult "
    ++ bytes "Mymr Nagm Nand Narb Nbat Newa Nkgb Nkoo Nshu Ogam Olck Onao Orkh Orya Osge Osma Ougr "
    ++ bytes "Palm Pauc Perm Phag Phli Phlp Phlv Phnx Plrd Prti Qaaa Qaab Qaac Qaad Qaae Qaaf Qaag "
    ++ bytes "Qaah Qaai Qaaj Qaak Qaal Qaam Qaan Qaao Qaap Qaaq Qaar Qaas Qaat Qaau Qaav Qaaw Qaax "
    ++ bytes "Qaay Qaaz Qaba Qabb Qabc Qabd Qabe Qabf Qabg Qabh Qabi Qabj Qabk Qabl Qabm Qabn Qabo "
    ++ bytes "Qabp Qabq Qabr Qabs Qabt Qabu Qabv Qabw Qabx Rjng Rohg Roro Runr Samr Sara Sarb Saur "
    ++ bytes "Sgnw Shaw Shrd Sidd Sidt Sind Sinh Sogd Sogo Sora Soyo Sund Sunu Sylo Syrc Syre Syrj "
    ++ bytes "Syrn Tagb Takr Tale Talu Taml Tang Tavt Tayo Telu Teng Tfng Tglg Thaa Thai Tibt Tirh "
    ++ bytes "Tnsa Todr Tols Toto Tutg Ugar Vaii Visp Vith Wara Wcho Wole Xpeo Xsux Yezi Yiii Zanb "
    ++ bytes "Zinh Zmth Zsye Zsym Zxxx Zyyy Zzzz")

/-- Regions by two letters. -/
def regions : List Bytes :=
  words (bytes "AA AC AD AE AF AG AI AL AM AN AO AQ AR AS AT AU AW AX AZ BA BB BD BE BF BG BH BI BJ "
    ++ bytes "BL BM BN BO BQ BR BS BT BU BV BW BY BZ CA CC CD CF CG CH CI CK CL CM CN CO CP CQ CR "
    ++ bytes "CS CT CU CV CW CX CY CZ DD DE DG DJ DK DM DO DY DZ EA EC EE EG EH ER ES ET EU EZ FI "
    ++ bytes "FJ FK FM FO FQ FR FX GA GB GD GE GF GG GH GI GL GM GN GP GQ GR GS GT GU GW GY HK HM "
    ++ bytes "HN HR HT HU HV IC ID IE IL IM IN IO IQ IR IS IT JE JM JO JP JT KE KG KH KI KM KN KP "
    ++ bytes "KR KW KY KZ LA LB LC LI LK LR LS LT LU LV LY MA MC MD ME MF MG MH MI MK ML MM MN MO "
    ++ bytes "MP MQ MR MS MT MU MV MW MX MY MZ NA NC NE NF NG NH NI NL NO NP NQ NR NT NU NZ OM PA "
    ++ bytes "PC PE PF PG PH PK PL PM PN PR PS PT PU PW PY PZ QA QM QN QO QP QQ QR QS QT QU QV QW "
    ++ bytes "QX QY QZ RE RH RO RS RU RW SA SB SC SD SE SG SH SI SJ SK SL SM SN SO SR SS ST SU SV "
    ++ bytes "SX SY SZ TA TC TD TF TG TH TJ TK TL TM TN TO TP TR TT TV TW TZ UA UG UK UM UN US UY "
    ++ bytes "UZ VA VC VD VE VG VI VN VU WF WK WS XA XB XC XD XE XF XG XH XI XJ XK XL XM XN XO XP "
    ++ bytes "XQ XR XS XT XU XV XW XX XY XZ YD YE YT YU ZA ZM ZR ZW ZZ")

/-- Regions by three letters. -/
def threeLetterRegions : List Bytes :=
  words (bytes "ABW AFG AGO AIA ALA ALB AND ANT ARE ARG ARM ASM ATA ATF ATG AUS AUT AZE BDI BEL BEN "
    ++ bytes "BES BFA BGD BGR BHR BHS BIH BLM BLR BLZ BMU BOL BRA BRB BRN BTN BUR BVT BWA CAF CAN "
    ++ bytes "CCK CHE CHL CHN CIV CMR COD COG COK COL COM CPV CRI CUB CUW CXR CYM CYP CZE DDR DEU "
    ++ bytes "DJI DMA DNK DOM DZA ECU EGY ERI ESH ESP EST ETH FIN FJI FLK FRA FRO FSM FXX GAB GBR "
    ++ bytes "GEO GGY GHA GIB GIN GLP GMB GNB GNQ GRC GRD GRL GTM GUF GUM GUY HKG HMD HND HRV HTI "
    ++ bytes "HUN IDN IMN IND IOT IRL IRN IRQ ISL ISR ITA JAM JEY JOR JPN KAZ KEN KGZ KHM KIR KNA "
    ++ bytes "KOR KWT LAO LBN LBR LBY LCA LIE LKA LSO LTU LUX LVA MAC MAF MAR MCO MDA MDG MDV MEX "
    ++ bytes "MHL MKD MLI MLT MMR MNE MNG MNP MOZ MRT MSR MTQ MUS MWI MYS MYT NAM NCL NER NFK NGA "
    ++ bytes "NIC NIU NLD NOR NPL NRU NTZ NZL OMN PAK PAN PCN PER PHL PLW PNG POL PRI PRK PRT PRY "
    ++ bytes "PSE PYF QAT REU ROU RUS RWA SAU SCG SDN SEN SGP SGS SHN SJM SLB SLE SLV SMR SOM SPM "
    ++ bytes "SRB SSD STP SUN SUR SVK SVN SWE SWZ SXM SYC SYR TCA TCD TGO THA TJK TKL TKM TLS TMP "
    ++ bytes "TON TTO TUN TUR TUV TWN TZA UGA UKR UMI URY USA UZB VAT VCT VEN VGB VIR VNM VUT WLF "
    ++ bytes "WSM YEM YMD YUG ZAF ZAR ZMB ZWE")

/-- Regions by number. -/
def regionNumbers : List Nat :=
  [1, 2, 3, 4, 5, 8, 9, 10, 11, 12, 13, 14, 15, 16, 17, 18, 19, 20, 21, 24, 28, 29, 30, 31, 32, 34,
   35, 36, 39, 40, 44, 48, 50, 51, 52, 53, 54, 56, 57, 60, 61, 62, 64, 68, 70, 72, 74, 76, 84, 86, 90,
   92, 96, 100, 104, 108, 112, 116, 120, 124, 132, 136, 140, 142, 143, 144, 145, 148, 150, 151, 152,
   154, 155, 156, 158, 162, 166, 170, 172, 174, 175, 178, 180, 184, 188, 191, 192, 196, 200, 202, 203,
   204, 208, 212, 214, 218, 222, 226, 230, 231, 232, 233, 234, 238, 239, 242, 246, 248, 249, 250, 254,
   258, 260, 262, 266, 268, 270, 275, 276, 278, 280, 288, 292, 296, 300, 304, 308, 312, 316, 320, 324,
   328, 332, 334, 336, 340, 344, 348, 352, 356, 360, 364, 368, 372, 376, 380, 384, 388, 392, 398, 400,
   404, 408, 410, 414, 417, 418, 419, 422, 426, 428, 430, 434, 438, 440, 442, 446, 450, 454, 458, 462,
   466, 470, 474, 478, 480, 484, 492, 496, 498, 499, 500, 504, 508, 512, 516, 520, 524, 528, 530, 531,
   532, 533, 534, 535, 536, 540, 548, 554, 558, 562, 566, 570, 574, 578, 580, 581, 582, 583, 584, 585,
   586, 591, 598, 600, 604, 608, 612, 616, 620, 624, 626, 630, 634, 638, 642, 643, 646, 652, 654, 659,
   660, 662, 663, 666, 670, 674, 678, 682, 686, 688, 690, 694, 702, 703, 704, 705, 706, 710, 716, 720,
   724, 728, 729, 732, 736, 740, 744, 748, 752, 756, 760, 762, 764, 768, 772, 776, 780, 784, 788, 792,
   795, 796, 798, 800, 804, 807, 810, 818, 826, 830, 831, 832, 833, 834, 840, 850, 854, 858, 860, 862,
   876, 882, 886, 887, 890, 891, 894, 958, 959, 960, 962, 963, 964, 965, 966, 967, 968, 969, 970, 971,
   972, 973, 974, 975, 976, 977, 978, 979, 980, 981, 982, 983, 984, 985, 986, 987, 988, 989, 990, 991,
   992, 993, 994, 995, 996, 997, 998, 999]

/-- Variants. -/
def variants : List Bytes :=
  words (bytes "1606nict 1694acad 1901 1959acad 1994 1996 abl1943 akuapem alalc97 aluku ao1990 "
    ++ bytes "aranes arevela arevmda arkaika asante auvern baku1926 balanka barla basiceng bauddha "
    ++ bytes "bciav bcizbl biscayan biske bohoric boont bornholm cisaup colb1945 cornu creiss "
    ++ bytes "dajnko ekavsk emodeng fonipa fonkirsh fonnapa fonupa fonxsamp gallo gascon grclass "
    ++ bytes "grital grmistr hepburn heploc hognorsk hsistemo ijekavsk itihasa ivanchov jauer "
    ++ bytes "jyutping kkcor kociewie kscor laukika lemosin lengadoc lipaw ltg1929 ltg2007 "
    ++ bytes "luna1918 metelko monoton ndyuka nedis newfound nicard njiva nulik osojs oxendict "
    ++ bytes "pahawh2 pahawh3 pahawh4 pamaka peano petr1708 pinyin polyton provenc puter rigik "
    ++ bytes "rozaj rumgr scotland scouse simple solba sotav spanglis surmiran sursilv sutsilv "
    ++ bytes "synnejyl tarask tongyong tunumiir uccor ucrcor ulster unifon vaidika valbadia "
    ++ bytes "valencia vallader vecdruka vivaraup wadegile xsistemo")

/-- Whole tags that follow no rule. -/
def irregular : List Bytes :=
  words (bytes "art-lojban cel-gaulish en-gb-oed en-us-posix i-ami i-bnn i-default i-enochian i-hak "
    ++ bytes "i-klingon i-lux i-mingo i-navajo i-pwn i-tao i-tay i-tsu no-bok no-nyn root "
    ++ bytes "sgn-be-fr sgn-be-nl sgn-ch-de zh-guoyu zh-hakka zh-min zh-min-nan zh-xiang")

end WordMachine.Locale.Registry
