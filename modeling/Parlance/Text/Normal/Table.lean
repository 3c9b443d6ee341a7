import Parlance.Text.Ranges
/-!
Characters that are made of others: which parts they have, and how marks are ordered.
-/
namespace Parlance.Text.Normal

def markClasses : List (Nat × Nat × Nat) := labelledOfText
  ["300-14-e6 1-e8 1-3-dc 1-e8 1-d8 1-4-dc 1-1-ca 1-3-dc 1-1-ca 1-a-dc 1-4-1 1-3-dc 1-7-e6 1-f0 1-e6",
   "1-2-dc 1-2-e6 1-1-dc 2-2-e6 1-3-dc 1-e6 1-e8 1-1-dc 1-e6 1-e9 1-1-ea 1-e9 1-1-ea 1-e9 1-c-e6",
   "114-4-e6 10a-dc 1-3-e6 1-dc 1-2-e6 1-de 1-dc 1-5-e6 1-5-dc 1-1-e6 1-dc 1-1-e6 1-de 1-e4 1-e6 1-a",
   "1-b 1-c 1-d 1-e 1-f 1-10 1-11 1-12 1-1-13 1-14 1-15 1-16 2-17 2-18 1-19 2-e6 1-dc 2-12 49-7-e6",
   "1-1e 1-1f 1-20 31-1b 1-1c 1-1d 1-1e 1-1f 1-20 1-21 1-22 1-1-e6 1-1-dc 1-4-e6 1-dc 1-1-e6 1-dc",
   "11-23 66-6-e6 3-3-e6 1-dc 1-e6 3-1-e6 2-dc 1-1-e6 1-dc 24-24 1f-e6 1-dc 1-1-e6 1-dc 1-1-e6",
   "1-2-dc 1-e6 1-1-dc 1-e6 1-dc 1-2-e6 1-dc 1-e6 1-dc 1-e6 1-dc 1-e6 1-dc 1-1-e6 a1-6-e6 1-dc 1-e6",
   "a-dc 19-3-e6 2-8-e6 2-2-e6 2-4-e6 2c-2-dc 3d-e6 1-2-dc 1-3-e6 2b-4-e6 1-4-dc 1-d-e6 2-dc 1-1-e6",
   "1-dc 1-1-e6 1-dc 1-2-e6 1-2-dc 1-1b 1-1c 1-1d 1-2-e6 1-dc 1-1-e6 1-1-dc 1-4-e6 3d-7 11-9 4-e6",
   "1-dc 1-1-e6 68-7 11-9 31-e6 3e-7 11-9 6f-7 11-9 6f-7 11-9 80-9 6f-7 11-9 8-54 1-5b 66-7 11-9",
   "6e-1-9 11-9 7d-9 6e-1-67 1-9 e-3-6b 6d-1-76 1-9 e-3-7a 4d-1-dc 1c-dc 2-dc 2-d8 38-81 1-82 2-84",
   "6-3-82 3-82 2-1-e6 1-9 2-1-e6 3f-dc 71-7 2-1-9 53-dc 2d0-2-e6 3b5-1-9 1f-9 9e-9 b-e6 cc-e4 90-de",
   "1-e6 1-dc dc-e6 1-dc 48-9 15-7-e6 3-dc 31-4-e6 1-5-dc 1-1-e6 1-dc 2-1-dc 1-1-e6 1-1-dc 1-4-e6",
   "1-dc 1-3-e6 66-7 10-9 27-e6 1-dc 1-6-e6 37-1-9 3b-7 c-1-9 44-7 99-2-e6 2-1 1-4-dc 1-1-e6 1-3-dc",
   "1-e6 2-6-1 5-dc 7-e6 4-1-e6 c7-1-e6 1-dc 1-6-e6 1-dc 1-1-e6 1-ea 1-d6 1-dc 1-ca 1-24-e6 1-e8",
   "1-1-e4 1-dc 1-da 1-e6 1-e9 1-dc 1-e6 1-dc 2d1-1-e6 1-1-1 1-3-e6 1-2-1 1-1-e6 5-e6 4-1-1 1-e6",
   "1-dc 1-e6 1-1-1 1-3-dc 1-e6 bff-2-e6 8e-9 61-1f-e6 22b-da 1-e4 1-e8 1-de 1-1-e0 6a-1-8 75d5-e6",
   "5-9-e6 21-1-e6 51-1-e6 115-9 26-9 98-9 1c-11-e6 3a-2-dc 26-9 60-7 d-9 f0-e6 2-1-e6 1-dc 3-1-e6",
   "6-1-e6 2-e6 35-9 f7-9 4f31-1a 302-6-e6 1-6-dc 1-1-e6 3ce-dc e3-dc 96-4-e6 693-dc 2-e6 29-e6 1-1",
   "1-dc 5-9 a6-e6 1-dc 23e-3-e6 184-1-e6 51-2-dc 47-1-dc 1-2-e6 1-dc 1-e6 1-3-dc 32-e6 1-dc 1-e6",
   "1-dc c1-9 2a-9 f-9 3a-9 1-7 46-2-e6 31-1-9 3f-7 4d-9 a-7 6b-9 1-7 b3-7 1-9 51-1-7 11-9 19-6-e6",
   "4-4-e6 ce-9 4-7 18-e6 64-9 1-7 fc-9 1-7 7f-9 77-9 1-7 74-9 10e-9 1-7 103-1-9 5-7 9d-9 54-9 13-9",
   "52-9 1a6-9 103-7 2-1-9 52-9 1aa-1-9 4bae-4-1 3c-6-e6 4ba-1-6 4cad-1 14c7-1-d8 1-2-1 4-e2 1-4-d8",
   "9-7-dc 3-4-e6 1-1-dc 1f-3-e6 95-2-e6 dbc-6-e6 2-10-e6 3-6-e6 2-1-e6 2-4-e6 65-e6 a1-6-e6 178-e6",
   "3e-3-e6 1fd-1-e8 1-dc 1-e6 3e1-6-dc 6e-5-e6 1-7"]

def pairs : List (Nat × Nat × Nat) := markedOfText
  ["300 AÀEÈIÌOÒUÙaàeèiìoòuùÜǛüǜNǸnǹЕЀИЍеѐиѝĒḔēḕŌṐōṑWẀwẁÂẦâầĂẰăằÊỀêềÔỒôồƠỜơờƯỪưừYỲyỳἀἂἁἃἈἊἉἋἐἒἑἓἘἚἙἛ",
   "300 ἠἢἡἣἨἪἩἫἰἲἱἳἸἺἹἻὀὂὁὃὈὊὉὋὐὒὑὓὙὛὠὢὡὣὨὪὩὫαὰεὲηὴιὶοὸυὺωὼΑᾺΕῈΗῊ᾿῍ϊῒΙῚ῾῝ϋῢΥῪ¨῭ΟῸΩῺ",
   "301 AÁEÉIÍOÓUÚYÝaáeéiíoóuúyýCĆcćLĹlĺNŃnńRŔrŕSŚsśZŹzźÜǗüǘGǴgǵÅǺåǻÆǼæǽØǾøǿ¨΅ΑΆΕΈΗΉΙΊΟΌΥΎΩΏϊΐαάεέηή",
   "301 ιίϋΰοόυύωώϒϓГЃКЌгѓкќÇḈçḉĒḖēḗÏḮïḯKḰkḱMḾmḿÕṌõṍŌṒōṓPṔpṕŨṸũṹWẂwẃÂẤâấĂẮăắÊẾêếÔỐôốƠỚơớƯỨưứἀἄἁἅἈἌἉἍ",
   "301 ἐἔἑἕἘἜἙἝἠἤἡἥἨἬἩἭἰἴἱἵἸἼἹἽὀὄὁὅὈὌὉὍὐὔὑὕὙὝὠὤὡὥὨὬὩὭ᾿῎῾῞",
   "302 AÂEÊIÎOÔUÛaâeêiîoôuûCĈcĉGĜgĝHĤhĥJĴjĵSŜsŝWŴwŵYŶyŷZẐzẑẠẬạậẸỆẹệỌỘọộ",
   "303 AÃNÑOÕaãnñoõIĨiĩUŨuũVṼvṽÂẪâẫĂẴăẵEẼeẽÊỄêễÔỖôỗƠỠơỡƯỮưữYỸyỹ",
   "308 AÄEËIÏOÖUÜaäeëiïoöuüyÿYŸΙΪΥΫιϊυϋϒϔЕЁІЇеёіїАӒаӓӘӚәӛЖӜжӝЗӞзӟИӤиӥОӦоӧӨӪөӫЭӬэӭУӰуӱЧӴчӵЫӸыӹHḦhḧÕṎ",
   "308 õṏŪṺūṻWẄwẅXẌxẍtẗ 30a AÅaåUŮuůwẘyẙ 327 CÇcçGĢgģKĶkķLĻlļNŅnņRŖrŗSŞsşTŢtţEȨeȩDḐdḑHḨhḩ",
   "304 AĀaāEĒeēIĪiīOŌoōUŪuūÜǕüǖÄǞäǟȦǠȧǡÆǢæǣǪǬǫǭÖȪöȫÕȬõȭȮȰȯȱYȲyȳИӢиӣУӮуӯGḠgḡḶḸḷḹṚṜṛṝαᾱΑᾹιῑΙῙυῡΥῩ",
   "306 AĂaăEĔeĕGĞgğIĬiĭOŎoŏUŬuŭУЎИЙийуўЖӁжӂАӐаӑЕӖеӗȨḜȩḝẠẶạặαᾰΑᾸιῐΙῘυῠΥῨ 328 AĄaąEĘeęIĮiįUŲuųOǪoǫ",
   "307 CĊcċEĖeėGĠgġIİZŻzżAȦaȧOȮoȯBḂbḃDḊdḋFḞfḟHḢhḣMṀmṁNṄnṅPṖpṗRṘrṙSṠsṡŚṤśṥŠṦšṧṢṨṣṩTṪtṫWẆwẇXẊxẋYẎyẏſẛ",
   "30c CČcčDĎdďEĚeěLĽlľNŇnňRŘrřSŠsšTŤtťZŽzžAǍaǎIǏiǐOǑoǒUǓuǔÜǙüǚGǦgǧKǨkǩƷǮʒǯjǰHȞhȟ 30b OŐoőUŰuűУӲуӳ",
   "31b OƠoơUƯuư 30f AȀaȁEȄeȅIȈiȉOȌoȍRȐrȑUȔuȕѴѶѵѷ 311 AȂaȃEȆeȇIȊiȋOȎoȏRȒrȓUȖuȗ 326 SȘsșTȚtț 653 اآ",
   "654 اأوؤيئەۀہۂےۓ 655 اإ 93c नऩरऱळऴ 9be েো 9d7 েৌ b56 େୈ b3e େୋ b57 େୌ bd7 ஒஔெௌ bbe ெொேோ c56 ెై",
   "cd5 ಿೀೆೇೊೋ cd6 ೆೈ cc2 ೆೊ d3e െൊേോ d57 െൌ dca ෙේොෝ dcf ෙො ddf ෙෞ 102e ဥဦ",
   "1b35 ᬅᬆᬇᬈᬉᬊᬋᬌᬍᬎᬑᬒᬺᬻᬼᬽᬾᭀᬿᭁᭂᭃ 325 AḀaḁ",
   "323 BḄbḅDḌdḍHḤhḥKḲkḳLḶlḷMṂmṃNṆnṇRṚrṛSṢsṣTṬtṭVṾvṿWẈwẉZẒzẓAẠaạEẸeẹIỊiịOỌoọƠỢơợUỤuụƯỰưựYỴyỵ",
   "331 BḆbḇDḎdḏKḴkḵLḺlḻNṈnṉRṞrṟTṮtṯZẔzẕhẖ 32d DḒdḓEḘeḙLḼlḽNṊnṋTṰtṱUṶuṷ 330 EḚeḛIḬiḭUṴuṵ 32e HḪhḫ",
   "324 UṲuṳ 309 AẢaảÂẨâẩĂẲăẳEẺeẻÊỂêểIỈiỉOỎoỏÔỔôổƠỞơởUỦuủƯỬưửYỶyỷ 313 αἀΑἈεἐΕἘηἠΗἨιἰΙἸοὀΟὈυὐωὠΩὨρῤ",
   "314 αἁΑἉεἑΕἙηἡΗἩιἱΙἹοὁΟὉυὑΥὙωὡΩὩρῥΡῬ",
   "342 ἀἆἁἇἈἎἉἏἠἦἡἧἨἮἩἯἰἶἱἷἸἾἹἿὐὖὑὗὙὟὠὦὡὧὨὮὩὯαᾶ¨῁ηῆ᾿῏ιῖϊῗ῾῟υῦϋῧωῶ",
   "345 ἀᾀἁᾁἂᾂἃᾃἄᾄἅᾅἆᾆἇᾇἈᾈἉᾉἊᾊἋᾋἌᾌἍᾍἎᾎἏᾏἠᾐἡᾑἢᾒἣᾓἤᾔἥᾕἦᾖἧᾗἨᾘἩᾙἪᾚἫᾛἬᾜἭᾝἮᾞἯᾟὠᾠὡᾡὢᾢὣᾣὤᾤὥᾥὦᾦὧᾧὨᾨὩᾩὪᾪὫᾫὬᾬὭᾭ",
   "345 ὮᾮὯᾯὰᾲαᾳάᾴᾶᾷΑᾼὴῂηῃήῄῆῇΗῌὼῲωῳώῴῶῷΩῼ",
   "338 ←↚→↛↔↮⇐⇍⇔⇎⇒⇏∃∄∈∉∋∌∣∤∥∦∼≁≃≄≅≇≈≉=≠≡≢≍≭<≮>≯≤≰≥≱≲≴≳≵≶≸≷≹≺⊀≻⊁⊂⊄⊃⊅⊆⊈⊇⊉⊢⊬⊨⊭⊩⊮⊫⊯≼⋠≽⋡⊑⋢⊒⋣⊲⋪⊳⋫⊴⋬⊵⋭",
   "3099 かがきぎくぐけげこごさざしじすずせぜそぞただちぢつづてでとどはばひびふぶへべほぼうゔゝゞカガキギクグケゲコゴサザシジスズセゼソゾタダチヂツヅテデトドハバヒビフブヘベホボウヴワヷヰヸ",
   "3099 ヱヹヲヺヽヾ 309a はぱひぴふぷへぺほぽハパヒピフプヘペホポ 110ba 𑂙𑂚𑂛𑂜𑂥𑂫 11127 𑄱𑄮𑄲𑄯 1133e 𑍇𑍋 11357 𑍇𑍌 114ba 𑒹𑒻",
   "114b0 𑒹𑒼 114bd 𑒹𑒾 115af 𑖸𑖺𑖹𑖻 11930 𑤵𑤸"]

def oneWayPairs : List (Nat × Nat × Nat) := pairRunsOfText
  ["344-308-301 958-915-93c-916-93c-917-93c-91c-93c-921-93c-922-93c-92b-93c-92f-93c 9dc-9a1-9bc",
   "9dd-9a2-9bc 9df-9af-9bc a33-a32-a3c a36-a38-a3c a59-a16-a3c-a17-a3c-a1c-a3c a5e-a2b-a3c",
   "b5c-b21-b3c-b22-b3c f43-f42-fb7 f4d-f4c-fb7 f52-f51-fb7 f57-f56-fb7 f5c-f5b-fb7 f69-f40-fb5",
   "f73-f71-f72 f75-f71-f74-fb2-f80 f78-fb3-f80 f81-f71-f80 f93-f92-fb7 f9d-f9c-fb7 fa2-fa1-fb7",
   "fa7-fa6-fb7 fac-fab-fb7 fb9-f90-fb5 2adc-2add-338 fb1d-5d9-5b4 fb1f-5f2-5b7 fb2a-5e9-5c1",
   "fb2b-5e9-5c2-fb49-5c1-fb49-5c2-5d0-5b7-5d0-5b8-5d0-5bc-5d1-5bc-5d2-5bc-5d3-5bc-5d4-5bc",
   "fb35-5d5-5bc-5d6-5bc fb38-5d8-5bc-5d9-5bc-5da-5bc-5db-5bc-5dc-5bc fb3e-5de-5bc fb40-5e0-5bc",
   "fb41-5e1-5bc fb43-5e3-5bc-5e4-5bc fb46-5e6-5bc-5e7-5bc-5e8-5bc-5e9-5bc-5ea-5bc-5d5-5b9",
   "fb4c-5d1-5bf-5db-5bf-5e4-5bf 1d15e-1d157-1d165-1d158-1d165-1d15f-1d16e-1d15f-1d16f",
   "1d162-1d15f-1d170-1d15f-1d171-1d15f-1d172 1d1bb-1d1b9-1d165-1d1ba-1d165-1d1bb-1d16e",
   "1d1be-1d1bc-1d16e-1d1bb-1d16f-1d1bc-1d16f"]

def singletons : List (Nat × Nat) := runsOfText
  ["340-300-301 343-313 374-2b9 37e-3b 387-b7 1f71-3ac 1f73-3ad 1f75-3ae 1f77-3af 1f79-3cc 1f7b-3cd",
   "1f7d-3ce 1fbb-386 1fbe-3b9 1fc9-388 1fcb-389 1fd3-390 1fdb-38a 1fe3-3b0 1feb-38e 1fee-385-60",
   "1ff9-38c 1ffb-38f 1ffd-b4 2000-2002-2003 2126-3a9 212a-4b-c5 2329-3008-3009"]

def ideographs : List (Nat × Nat) := characterRunsOfText
  ["f900 豈更車賈滑串句龜龜契金喇奈懶癩羅蘿螺裸邏樂洛烙珞落酪駱亂卵欄爛蘭鸞嵐濫藍襤拉臘蠟",
   "f928 廊朗浪狼郎來冷勞擄櫓爐盧老蘆虜路露魯鷺碌祿綠菉錄鹿論壟弄籠聾牢磊賂雷壘屢樓淚漏累",
   "f950 縷陋勒肋凜凌稜綾菱陵讀拏樂諾丹寧怒率異北磻便復不泌數索參塞省葉說殺辰沈拾若掠略亮",
   "f978 兩凉梁糧良諒量勵呂女廬旅濾礪閭驪麗黎力曆歷轢年憐戀撚漣煉璉秊練聯輦蓮連鍊列劣咽烈",
   "f9a0 裂說廉念捻殮簾獵令囹寧嶺怜玲瑩羚聆鈴零靈領例禮醴隸惡了僚寮尿料樂燎療蓼遼龍暈阮劉",
   "f9c8 杻柳流溜琉留硫紐類六戮陸倫崙淪輪律慄栗率隆利吏履易李梨泥理痢罹裏裡里離匿溺吝燐璘",
   "f9f0 藺隣鱗麟林淋臨立笠粒狀炙識什茶刺切度拓糖宅洞暴輻行降見廓兀嗀 fa10 塚 fa12 晴",
   "fa15 凞猪益礼神祥福靖精羽 fa20 蘒 fa22 諸 fa25 逸都",
   "fa2a 飯飼館鶴郞隷侮僧免勉勤卑喝嘆器塀墨層屮悔慨憎懲敏既暑梅海渚漢煮爫琢碑社祉祈祐祖祝",
   "fa52 禍禎穀突節練縉繁署者臭艹艹著褐視謁謹賓贈辶逸難響頻恵𤋮舘",
   "fa70 並况全侀充冀勇勺喝啕喙嗢塚墳奄奔婢嬨廒廙彩徭惘慎愈憎慠懲戴揄搜摒敖晴朗望杖歹殺流",
   "fa98 滛滋漢瀞煮瞧爵犯猪瑱甆画瘝瘟益盛直睊着磌窱節类絛練缾者荒華蝹襁覆視調諸請謁諾諭謹",
   "fac0 變贈輸遲醙鉶陼難靖韛響頋頻鬒龜𢡊𢡄𣏕㮝䀘䀹𥉉𥳐𧻓齃龎",
   "2f800 丽丸乁𠄢你侮侻倂偺備僧像㒞𠘺免兔兤具𠔜㒹內再𠕋冗冤仌冬况𩇟凵刃㓟刻剆割剷㔕勇勉勤",
   "2f828 勺包匆北卉卑博即卽卿卿卿𠨬灰及叟𠭣叫叱吆咞吸呈周咢哶唐啓啣善善喙喫喳嗂圖嘆圗噑噴",
   "2f850 切壮城埴堍型堲報墬𡓤売壷夆多夢奢𡚨𡛪姬娛娧姘婦㛮㛼嬈嬾嬾𡧈寃寘寧寳𡬘寿将当尢㞁屠",
   "2f878 屮峀岍𡷤嵃𡷦嵮嵫嵼巡巢㠯巽帨帽幩㡢𢆃㡼庰庳庶廊𪎒廾𢌱𢌱舁弢弢㣇𣊸𦇚形彫㣣徚忍志忹",
   "2f8a0 悁㤺㤜悔𢛔惇慈慌慎慌慺憎憲憤憯懞懲懶成戛扝抱拔捐𢬌挽拼捨掃揤𢯱搢揅掩㨮摩摾撝摷㩬",
   "2f8c8 敏敬𣀊旣書晉㬙暑㬈㫤冒冕最暜肭䏙朗望朡杞杓𣏃㭉柺枅桒梅𣑭梎栟椔㮝楂榣槪檨𣚣櫛㰘次",
   "2f8f0 𣢧歔㱎歲殟殺殻𣪍𡴋𣫺汎𣲼沿泍汧洖派海流浩浸涅𣴞洴港湮㴳滋滇𣻑淹潮𣽞𣾎濆瀹瀞瀛㶖灊",
   "2f918 災灷炭𠔥煅𤉣熜𤎫爨爵牐𤘈犀犕𤜵𤠔獺王㺬玥㺸㺸瑇瑜瑱璅瓊㼛甤𤰶甾𤲒異𢆟瘐𤾡𤾸𥁄㿼䀈",
   "2f940 直𥃳𥃲𥄙𥄳眞真真睊䀹瞋䁆䂖𥐝硎碌磌䃣𥘦祖𥚚𥛅福秫䄯穀穊穏𥥼𥪧𥪧竮䈂𥮫篆築䈧𥲀糒䊠",
   "2f968 糨糣紀𥾆絣䌁緇縂繅䌴𦈨𦉇䍙𦋙罺𦌾羕翺者𦓚𦔣聠𦖨聰𣍟䏕育脃䐋脾媵𦞧𦞵𣎓𣎜舁舄辞䑫芑",
   "2f990 芋芝劳花芳芽苦𦬼若茝荣莭茣莽菧著荓菊菌菜𦰶𦵫𦳕䔫蓱蓳蔖𧏊蕤𦼬䕝䕡𦾱𧃒䕫虐虜虧虩蚩",
   "2f9b8 蚈蜎蛢蝹蜨蝫螆䗗蟡蠁䗹衠衣𧙧裗裞䘵裺㒻𧢮𧥦䚾䛇誠諭變豕𧲨貫賁贛起𧼯𠠄跋趼跰𠣞軔輸",
   "2f9e0 𨗒𨗭邔郱鄑𨜮鄛鈸鋗鋘鉼鏹鐕𨯺開䦕閷𨵷䧦雃嶲霣𩅅𩈚䩮䩶韠𩐊䪲𩒖頋頋頩𩖶飢䬳餩馧駂駾",
   "2fa08 䯎𩬰鬒鱀鳽䳎䳭鵧𪃎䳸𪄅𪈎𪊑麻䵖黹黾鼅鼏鼖鼻𪘀"]

/-- Ranges of starting characters that stand for a spelling with marks at its end without being equal
to it, and how many marks those are. -/
def markedEnds : List (Nat × Nat × Nat) := labelledOfText
  ["a8-1 7-1 5-1 4-1 10c-2-1 112-5-1 9d-1 a-1 1-2 bf2-2 2-2 1044-1 2-1-1 1-2 c-2-2 e-2-2 e-1-2 f-1-1",
   "19-1 27-1 105d-1-1 1d2-10-1 86-1 3-1 9-1 e-1 3-1 11-1 9-1 5-1 b-1 3-1 c856-1-1 b-1-1 aa-2-1",
   "1-5-2 2d-1 49-1 19-2-2 48-1-1 10c-3-1 24-2-1 2-1 2-9-1 2-b-1 69-5-1 e9-1 f230-1"]

/-- Ranges of characters that stand for one that belongs to the character before it, without being
equal to that one. -/
def attachedForms : Ranges := .ofText
  ["3133 2-1 4-5 10-14 ce3b-1 4 2-1 4-5 13-5 3-5 3-5 3-2"]

end Parlance.Text.Normal
