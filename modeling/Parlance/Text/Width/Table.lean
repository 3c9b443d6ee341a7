import Parlance.Text.Ranges
/-!
Characters as a terminal sees them: how many columns each takes, and which belong to one cluster.
-/
namespace Parlance.Text

def wideRanges : Ranges := .ofText
  ["1100-5f 11bb-1 e-1 bf-3 4 3 20a-1 16-1 33-b 2c 14 e 9-1 12-1 6-1 9 6 16 8-1 2 5 3 8 5-1 1d 24 2",
   "5-2 2 3e-2 19 f 35c-1 34 5 32b-19 2-58 d-d5 1b-b 5-3e 3-55 3-66 6-2a 2-5d 2-53 d-2e 2-27 9-1b6f",
   "41-568c 4-36 49a-1c 284-2ba3 215d-1ff 311-9 17-22 2-12 2-3 96-5f 80-6 6ffa-4 c-1 f-17f7 9-4d5",
   "2b-8 22e8-3 2-6 2-1 2-122 10 1e-2 3 f-3 9-18b 3d09 cb bf 3-9 66-2 e-2b 5-8 8-1 f-5 9b-20 d-8",
   "2-45 2-15 d-2a 5-4 d-10 4 4-46 2 2-ba 3-3e e-3 2-17 13 1b-1 e 57-54 31-45 7 4-2 3-2 5-3 c-1 8-8",
   "e4-b 5 11c-2e 2-9 2-b8 71-c 4-8 8-2d 2-6 9-d 5-8 8-8 508-fffd 3-fffd"]

def combiningRanges : Ranges := .ofText
  ["300-6f 114-4 364-8 40d 4 ef d-1 65c-2 720 31-1e 9d-8 24d-3f 2d1-20 bff-2 ef-1f 29a-1 75d5-3 2-9",
   "21-1 51-1 1ef-11 552f-f 3ce 179-4 b31-1 9a-a 32-3 37b-1 3a-1 2a-6 4-4 577c-4 640c-2d 3-16 21f-4",
   "4-5 9-7 3-6 1f-3 95-2 dbc-6 2-10 3-6 2-1 2-4 65 841-6"]

def invisibleRanges : Ranges := .ofText
  ["70f 10fc-3 7fd-4 19-6 3c-5 de90 fa-2 3-1"]

def extendRanges : Ranges := .ofText
  ["300-6f 114-6 108-2c 2 2-1 2-1 2 49-a 31-14 11 66-6 3-5 3-1 2-3 24 1f-1a 5c-a 3b-8 a 19-3 2-8 2-2",
   "2-4 2c-2 3d-7 2b-17 2-1f 38 2 5-7 5 4-6 b-1 1e 3b 2 3-3 9 a b-1 1b 3-1 3a 5-1 5-1 3-2 4 1f-1 4",
   "c-1 3a 5-4 2-1 5 15-1 17-5 2 3b 2-1 2-3 9 8-2 b-1 1f 3c 2 d a 29 4 38 2-2 6-2 2-3 8-1 c-1 1e 3b",
   "3 3 4 6-1 8-1 c-1 1d-1 3a-1 2 3-3 9 a b-1 1e 49 5 3-2 2 9 52 3-6 d-7 63 3-8 c-6 4a-1 1c 2 2 38-d",
   "2-4 2-1 6-a 2-23 a 67-3 2-5 2-1 3-1 1a-1 5-2 11-3 e 3-1 7 10 2c0-2 3b3-2 1e-1 1f-1 1f-1 41-1 2-6",
   "9 3-a a 2e-2 2 76-1 23 77-2 5-1 a 7-2 dc-1 3 3b 2-6 2 2 3-7 7-9 3 31-1e 32-3 31-6 2 6 29-8 d-1",
   "21-3 3-1 2-2 39 2-1 4 2-2 3b-7 3-1 99-2 2-c 2-6 5 7 4-1 c7-3f 20d c4-20 bff-2 8e 61-1f 22b-5",
   "6a-1 75d5-3 2-9 21-1 51-1 111 4 5 1a-1 6 98-1 1b-11 e 27-7 1a-a 2f-2 31 3-3 3-1 28 44-5 3-1 3-1",
   "d 9 30 34 2-2 3-1 6-1 2 2b-1 9 ef 3 5 4f31 2e2-f 11-f 16f-1 25e e3 96-4 687-2 2-1 6-3 29-2 5",
   "a6-1 23e-3 184-1 51-2 47-a 32-3 7c 37-e 2a 3-1 b-2 32-3 3-1 8 3e-2 25-4 2-7 3f d-1 35-8 b-3 3",
   "60-2 3 2-1 7 3 9e 4-7 16-1 3a-1 2 2 17 f-6 4-4 c4-7 3-2 2 18 52 3-5 2 3 2-1 2-1 ec 3-3 7-1 2-1",
   "1c-1 56-7 3 2-1 6b 2 3-5 2 66-2 3-3 2-4 104-8 2-1 f6 b-1 2 5 91-3 3-1 5 21-9 29-5 3-3 9 a-5 3-2",
   "2f-c 2-1 197-6 2-5 2 53-15 3-6 2-1 2-1 7b-5 4 2-1 2-6 2 49-1 4 2 15c-1 c-1 35-4 6 2 14fe 7-e",
   "369b-4 3c-6 419 40-3 52 4cb9-1 1262-2d 3-16 21f 2-2 5-4 9-7 3-6 1f-3 95-2 7bc-36 5-31 9 f 17-4",
   "2-e 551-6 2-10 3-6 2-1 2-4 65 a1-6 178 3e-3 1fd-3 3e1-6 6e-6 ab1-4 c0c21-5f 81-ef"]

def spacingRanges : Ranges := .ofText
  ["903 38 3-2 9-3 2-1 33-1 3c-1 7-1 3-1 37 3b-2 43 3b-2 9 2-1 36-1 3d 7-1 3-1 73 2-1 4-2 2-2 35-2",
   "3e-3 3e-1 3b 2-1 2-1 3-1 2-1 28 f-1 3c-1 6-2 2-2 36-1 4d-1 7-6 14-1 40 80 8b-1 40 b2 a-1 1a-1 2d",
   "691 1f 82 8-7 2-1 15b-3 3-2 5-1 2-5 e1-1 3b 2 16-5 92 37 2-4 2-1 3e 1f 5-1 3 3d 3-2 2 4-1 31-7",
   "9-1 ac 16 8b2c-1 3 59-1 33-f 8f-1 30 31-1 5-1 3-2 6f-1 3-1 19 9e 3-1 6 ee-1 2-1 2-1 2 6414 2 80",
   "2e-2 5-1 74 19-1 3c 31-2 a-1 e 5e-2 4-1 2 ab-2 20-1 3c 2-3 3-1 3-2 15-1 d2-2 9-1 4 6c-1 7 2-1 2",
   "3 ef-1 7-3 3 72-2 9-1 2 6e 2-1 7 70 106-2 a f9-4 2-1 5 3 2 8f-2 9-3 5 55 1e-1 3f 198 f 6b 8 3",
   "d6-4 5-1 2 15f-1 d 31-1 9-1 2 5010-36 69-1 6175 7"]

def prependRanges : Ranges := .ofText
  ["600-5 d8 32 181-1 51 46c 1036f 10 f5-1 77c 2 f9 4a-5 2bd 1bc"]

def controlRanges : Ranges := .ofText
  ["0-9 2-1 2-11 60-20 e 56f 11f2 7fd 3-1 19-6 32-f de90 f1-b 3435-f 8861-3 14d0-7 c2e86-1f 61-7f",
   "f1-e0f"]

def pictographRanges : Ranges := .ofText
  ["a9 5 1f8e d d9 17 5b-5 10-1 170-1 d 60 47 1a-a 5-2 c8 e8-1 b a 3b-3 2-5 2-b 2-71 b-75 3-a 2 2 7",
   "4 7 b-1 10 3 5 2 5-2 2 c-4 2e-2 a f f 175-1 1d0-2 14-1 34 5 4db d 25a 2 1bd67-ff e-2 20 3d-5 d-1",
   "f 3-9 13-38 1c-e b 15 3-8 2-3 a-1b1 6-13d 9-109 31-7f 75-b 56-2a d-3 39-7 b-5 29-7 1f-51 d-2e",
   "2-9 2-1b8 101-3fd"]

end Parlance.Text
