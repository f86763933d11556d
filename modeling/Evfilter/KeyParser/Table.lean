import Evfilter.Lib.CString

/-!
# The table of key names

`keys.h`. The values of the keys come from `linux/input.h` and are a parameter of what uses the table.
-/

namespace Evfilter.KeyParser
open Lib

/-- `key_names`, in the order of the file. -/
def keyNameLiterals : List String := [
  "Btn_0", "Btn_1", "Btn_2", "Btn_3", "Btn_4", "Btn_5", "Btn_6", "Btn_7", "Btn_8", "Btn_9", "Btn_A",
  "Btn_B", "Btn_Back", "Btn_Base", "Btn_Base2", "Btn_Base3", "Btn_Base4", "Btn_Base5", "Btn_Base6",
  "Btn_C", "Btn_Dead", "Btn_Digi", "Btn_Extra", "Btn_Forward", "Btn_Gamepad", "Btn_Gear_Down",
  "Btn_Gear_Up", "Btn_Joystick", "Btn_Left", "Btn_Middle", "Btn_Misc", "Btn_Mode", "Btn_Mouse",
  "Btn_Pinkie", "Btn_Right", "Btn_Select", "Btn_Side", "Btn_Start", "Btn_Stylus", "Btn_Stylus2",
  "Btn_Task", "Btn_Thumb", "Btn_Thumb2", "Btn_Thumbl", "Btn_Thumbr", "Btn_Tl", "Btn_Tl2",
  "Btn_Tool_Airbrush", "Btn_Tool_Brush", "Btn_Tool_Doubletap", "Btn_Tool_Finger", "Btn_Tool_Lens",
  "Btn_Tool_Mouse", "Btn_Tool_Pen", "Btn_Tool_Pencil", "Btn_Tool_Rubber", "Btn_Tool_Tripletap", "Btn_Top",
  "Btn_Top2", "Btn_Touch", "Btn_Tr", "Btn_Tr2", "Btn_Trigger", "Btn_Wheel", "Btn_X", "Btn_Y", "Btn_Z",
  "Key_0", "Key_1", "Key_102nd", "Key_2", "Key_3", "Key_4", "Key_5", "Key_6", "Key_7", "Key_8", "Key_9",
  "Key_A", "Key_Ab", "Key_Addressbook", "Key_Again", "Key_Alterase", "Key_Angle", "Key_Apostrophe",
  "Key_Archive", "Key_Audio", "Key_Aux", "Key_B", "Key_Back", "Key_Backslash", "Key_Backspace",
  "Key_Bassboost", "Key_Battery", "Key_Blue", "Key_Bluetooth", "Key_Bookmarks", "Key_Break",
  "Key_Brightness_Cycle", "Key_Brightnessdown", "Key_Brightnessup", "Key_Brightness_Zero", "Key_Brl_Dot1",
  "Key_Brl_Dot10", "Key_Brl_Dot2", "Key_Brl_Dot3", "Key_Brl_Dot4", "Key_Brl_Dot5", "Key_Brl_Dot6",
  "Key_Brl_Dot7", "Key_Brl_Dot8", "Key_Brl_Dot9", "Key_C", "Key_Calc", "Key_Calendar", "Key_Camera",
  "Key_Cancel", "Key_Capslock", "Key_Cd", "Key_Channel", "Key_Channeldown", "Key_Channelup", "Key_Chat",
  "Key_Clear", "Key_Close", "Key_Closecd", "Key_Coffee", "Key_Comma", "Key_Compose", "Key_Computer",
  "Key_Config", "Key_Connect", "Key_Copy", "Key_Cut", "Key_Cyclewindows", "Key_D", "Key_Database",
  "Key_Del_Eol", "Key_Del_Eos", "Key_Delete", "Key_Deletefile", "Key_Del_Line", "Key_Digits",
  "Key_Direction", "Key_Directory", "Key_Display_Off", "Key_Displaytoggle", "Key_Documents", "Key_Dot",
  "Key_Down", "Key_Dvd", "Key_E", "Key_Edit", "Key_Editor", "Key_Ejectcd", "Key_Ejectclosecd", "Key_Email",
  "Key_End", "Key_Enter", "Key_Epg", "Key_Equal", "Key_Esc", "Key_Exit", "Key_F", "Key_F1", "Key_F10",
  "Key_F11", "Key_F12", "Key_F13", "Key_F14", "Key_F15", "Key_F16", "Key_F17", "Key_F18", "Key_F19",
  "Key_F2", "Key_F20", "Key_F21", "Key_F22", "Key_F23", "Key_F24", "Key_F3", "Key_F4", "Key_F5", "Key_F6",
  "Key_F7", "Key_F8", "Key_F9", "Key_Fastforward", "Key_Favorites", "Key_File", "Key_Finance", "Key_Find",
  "Key_First", "Key_Fn", "Key_Fn_1", "Key_Fn_2", "Key_Fn_B", "Key_Fn_D", "Key_Fn_E", "Key_Fn_Esc",
  "Key_Fn_F", "Key_Fn_F1", "Key_Fn_F10", "Key_Fn_F11", "Key_Fn_F12", "Key_Fn_F2", "Key_Fn_F3", "Key_Fn_F4",
  "Key_Fn_F5", "Key_Fn_F6", "Key_Fn_F7", "Key_Fn_F8", "Key_Fn_F9", "Key_Fn_S", "Key_Forward",
  "Key_Forwardmail", "Key_Front", "Key_G", "Key_Games", "Key_Goto", "Key_Graphicseditor", "Key_Grave",
  "Key_Green", "Key_H", "Key_Hangeul", "Key_Hanja", "Key_Help", "Key_Henkan", "Key_Hiragana", "Key_Home",
  "Key_Homepage", "Key_Hp", "Key_I", "Key_Info", "Key_Insert", "Key_Ins_Line", "Key_Iso", "Key_J", "Key_K",
  "Key_Katakana", "Key_Katakanahiragana", "Key_Kbdillumdown", "Key_Kbdillumtoggle", "Key_Kbdillumup",
  "Key_Keyboard", "Key_Kp0", "Key_Kp1", "Key_Kp2", "Key_Kp3", "Key_Kp4", "Key_Kp5", "Key_Kp6", "Key_Kp7",
  "Key_Kp8", "Key_Kp9", "Key_Kpasterisk", "Key_Kpcomma", "Key_Kpdot", "Key_Kpenter", "Key_Kpequal",
  "Key_Kpjpcomma", "Key_Kpleftparen", "Key_Kpminus", "Key_Kpplus", "Key_Kpplusminus", "Key_Kprightparen",
  "Key_Kpslash", "Key_L", "Key_Language", "Key_Last", "Key_Left", "Key_Leftalt", "Key_Leftbrace",
  "Key_Leftctrl", "Key_Leftmeta", "Key_Leftshift", "Key_Linefeed", "Key_List", "Key_M", "Key_Macro",
  "Key_Mail", "Key_Media", "Key_Memo", "Key_Menu", "Key_Messenger", "Key_Mhp", "Key_Minus", "Key_Mode",
  "Key_Move", "Key_Mp3", "Key_Msdos", "Key_Muhenkan", "Key_Mute", "Key_N", "Key_New", "Key_News",
  "Key_Next", "Key_Nextsong", "Key_Numlock", "Key_O", "Key_Ok", "Key_Open", "Key_Option", "Key_P",
  "Key_Pagedown", "Key_Pageup", "Key_Paste", "Key_Pause", "Key_Pausecd", "Key_Pc", "Key_Phone", "Key_Play",
  "Key_Playcd", "Key_Player", "Key_Playpause", "Key_Power", "Key_Power2", "Key_Presentation",
  "Key_Previous", "Key_Previoussong", "Key_Print", "Key_Prog1", "Key_Prog2", "Key_Prog3", "Key_Prog4",
  "Key_Program", "Key_Props", "Key_Pvr", "Key_Q", "Key_Question", "Key_R", "Key_Radio", "Key_Record",
  "Key_Red", "Key_Redo", "Key_Refresh", "Key_Reply", "Key_Restart", "Key_Rewind", "Key_Right",
  "Key_Rightalt", "Key_Rightbrace", "Key_Rightctrl", "Key_Rightmeta", "Key_Rightshift", "Key_Ro", "Key_S",
  "Key_Sat", "Key_Sat2", "Key_Save", "Key_Screen", "Key_Scrolldown", "Key_Scrolllock", "Key_Scrollup",
  "Key_Search", "Key_Select", "Key_Semicolon", "Key_Send", "Key_Sendfile", "Key_Setup", "Key_Shop",
  "Key_Shuffle", "Key_Slash", "Key_Sleep", "Key_Slow", "Key_Sound", "Key_Space", "Key_Sport",
  "Key_Spreadsheet", "Key_Stop", "Key_Stopcd", "Key_Subtitle", "Key_Suspend", "Key_Switchvideomode",
  "Key_Sysrq", "Key_T", "Key_Tab", "Key_Tape", "Key_Teen", "Key_Text", "Key_Time", "Key_Title",
  "Key_Tuner", "Key_Tv", "Key_Tv2", "Key_Twen", "Key_U", "Key_Undo", "Key_Up", "Key_V", "Key_Vcr",
  "Key_Vcr2", "Key_Vendor", "Key_Video", "Key_Video_Next", "Key_Videophone", "Key_Video_Prev",
  "Key_Voicemail", "Key_Volumedown", "Key_Volumeup", "Key_W", "Key_Wakeup", "Key_Wlan",
  "Key_Wordprocessor", "Key_Www", "Key_X", "Key_Xfer", "Key_Y", "Key_Yellow", "Key_Yen", "Key_Z",
  "Key_Zenkakuhankaku", "Key_Zoom", "Key_Zoomin", "Key_Zoomout", "Key_Zoomreset", "No_Key"
]

def keyNames : List CString := keyNameLiterals.map CString.literal

abbrev keyCount : Nat := 418

def keyName (i : Nat) : CString := keyNames.getD i (CString.literal "")

end Evfilter.KeyParser
